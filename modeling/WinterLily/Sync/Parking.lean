import WinterLily.Sync.Exclusion

/-! Parking against releasing. A thread parks only on a nonzero word, and nothing in the lock ever
wakes it, so what loses a wake-up is exactly a release to zero with somebody asleep. -/
namespace WinterLily.Sync
open WinterLily.Transition

/-- In the middle of an unlock: called, its atomic instruction not yet executed. -/
def Pc.unlocking : Pc → Bool
  | .unlockExclusive | .unlockShared => true
  | _ => false

section Threads

variable {ι : Type*} [DecidableEq ι]

/-- The machine in which a parked thread returns only on a wake, never on a signal. -/
def uninterrupted (s : State ι) : Label ι → Option (State ι)
  | .interrupt _ => none
  | e => step s e

/-- A free lock that nobody is leaving, with a thread asleep on it. -/
def State.LostWakeup (s : State ι) : Prop :=
  s.word = 0 ∧ (∀ i, (s.thread i).pc.unlocking = false) ∧ ∃ i, (s.thread i).pc.parked = true

/-- The next instruction of thread `i` is the release that frees the lock. -/
def State.Frees (s : State ι) (i : ι) : Prop :=
  (s.thread i).pc = .unlockExclusive ∨ (s.thread i).pc = .unlockShared ∧ s.word = 1

/-- The lock is freed only while nobody is asleep on it. -/
def FreesUnwatched (s : State ι) (e : Label ι) : Prop :=
  ∀ i spurious, e = .run i spurious → s.Frees i → ∀ j, (s.thread j).pc.parked = false

lemma uninterrupted_step {s t : State ι} {e : Label ι} (h : uninterrupted s e = some t) :
    step s e = some t := by
  cases e with
  | interrupt i => simp [uninterrupted] at h
  | call i c => exact h
  | run i spurious => exact h
  | resume i => exact h

/-- The invariant of the runs that lose no wake-up. -/
structure ParkInv [Fintype ι] (s : State ι) : Prop where
  lock : Inv s
  wakes : s.wakes = 0
  awake : s.word = 0 → ∀ j, (s.thread j).pc.parked = false

lemma parked_set {s : State ι} {i j : ι} {t : Thread} :
    ((s.set i t).thread j).pc.parked =
      if j = i then t.pc.parked else (s.thread j).pc.parked := by
  by_cases h : j = i
  · subst j; simp [State.set]
  · simp [State.set,h]

omit [DecidableEq ι] in
/-- Nobody can be about to unlock a free lock. -/
lemma not_unlocking_of_word_zero [Fintype ι] {s : State ι} (hs : Inv s) (hw : s.word = 0) (i : ι) :
    (s.thread i).pc.unlocking = false := by
  have hword := hs.word
  rw [hw] at hword
  change 0 = s.sharedHolders+2^31*s.exclusiveHolders at hword
  obtain ⟨hle,hls⟩ := thread_le_holders s i
  obtain ⟨hex,hsh⟩ := hs.owns i
  cases hpc : (s.thread i).pc with
  | unlockExclusive =>
    have := hex (.inl hpc)
    omega
  | unlockShared =>
    have := hsh hpc
    omega
  | _ => rfl

omit [DecidableEq ι] in
/-- An instruction that leaves the word zero found it zero or is the release that frees the lock;
either way its thread stays awake. -/
lemma move_word_zero {s : State ι} {i : ι} {w : Word} {t : Thread}
    (hm : Move s.word (s.thread i) w t) (hw : w = 0) :
    t.pc.parked = false ∧ (s.word = 0 ∨ s.Frees i) := by
  generalize hti : s.thread i = ti at hm
  generalize hsw : s.word = ws at hm
  cases hm with
  | quiet pc hr hp =>
    refine ⟨?_,.inl hw⟩
    by_contra hpk
    exact hp (by simpa using hpk) hw
  | acquireExclusive r | downgrade hpc => exact absurd hw (by decide)
  | acquireShared r hb =>
    have h := toNat_succ_of_bit_clear hb
    rw [hw] at h
    change 0 = _ at h
    omega
  | releaseExclusive hpc => exact ⟨rfl,.inr (.inl (hti ▸ hpc))⟩
  | releaseShared hpc => exact ⟨rfl,.inr (.inr ⟨hti ▸ hpc,hsw.trans (sub_eq_zero.mp hw)⟩)⟩

omit [DecidableEq ι] in
/-- The freeing release does leave the word zero. -/
lemma word_zero_of_frees {s : State ι} {i : ι} {w : Word} {t : Thread} {spurious : Bool}
    (hf : s.Frees i) (h : threadStep s.word (s.thread i) spurious = some (w,t)) : w = 0 := by
  rcases hf with hpc | ⟨hpc,hw⟩
  · simp only [threadStep,hpc,Option.some.injEq,Prod.mk.injEq] at h
    exact h.1.symm
  · simp only [threadStep,hpc,hw,Option.some.injEq,Prod.mk.injEq] at h
    exact h.1.symm

omit [DecidableEq ι] in
lemma not_parked_of_frees {s : State ι} {i : ι} (hf : s.Frees i) :
    (s.thread i).pc.parked = false := by
  rcases hf with hpc | ⟨hpc,-⟩ <;> rw [hpc] <;> rfl

omit [DecidableEq ι] in
theorem initial_parkInv [Fintype ι] : ParkInv (State.initial : State ι) :=
  ⟨initial_inv,rfl,fun _ _ => rfl⟩

/-- No function issues a wake, so the counter never leaves zero. -/
lemma wakes_zero_step {s t : State ι} {e : Label ι} (hs : s.wakes = 0) (h : step s e = some t) :
    t.wakes = 0 := by
  cases e with
  | call i c =>
    simp only [step] at h
    split at h
    · split_ifs at h
      cases h
      exact hs
    · contradiction
  | run i spurious =>
    obtain ⟨r,-,rfl⟩ := Option.map_eq_some_iff.mp h
    exact hs
  | resume i => simp [step,hs] at h
  | interrupt i =>
    obtain ⟨u,-,rfl⟩ := Option.map_eq_some_iff.mp h
    exact hs

theorem parkInv_step [Fintype ι] (s : State ι) (e : Label ι) (t : State ι) (hs : ParkInv s)
    (hc : FreesUnwatched s e) (h : uninterrupted s e = some t) : ParkInv t := by
  have hstep := uninterrupted_step h
  refine ⟨step_inv s e t hs.lock hstep,wakes_zero_step hs.wakes hstep,?_⟩
  cases e with
  | interrupt i => simp [uninterrupted] at h
  | resume i => simp [step,hs.wakes] at hstep
  | call i c =>
    simp only [step] at hstep
    split at hstep
    · split_ifs at hstep
      cases hstep
      intro hw j
      rw [parked_set]
      split_ifs
      · cases c <;> rfl
      · exact hs.awake hw j
    · contradiction
  | run i spurious =>
    obtain ⟨⟨w,u⟩,hu,rfl⟩ := Option.map_eq_some_iff.mp hstep
    intro hw j
    obtain ⟨hup,hcase⟩ := move_word_zero (threadStep_move hu) hw
    change ((s.set i u).thread j).pc.parked = false
    rw [parked_set]
    split_ifs
    · exact hup
    · rcases hcase with hz | hf
      · exact hs.awake hz j
      · exact hc i spurious rfl hf j

/-- Freeing the lock over a sleeping thread loses its wake-up at once. -/
lemma lostWakeup_of_frees [Fintype ι] (s : State ι) (e : Label ι) (t : State ι) (hs : ParkInv s)
    (hc : ¬ FreesUnwatched s e) (h : uninterrupted s e = some t) : t.LostWakeup := by
  have hstep := uninterrupted_step h
  have ht := step_inv s e t hs.lock hstep
  simp only [FreesUnwatched,not_forall] at hc
  obtain ⟨i,spurious,rfl,hf,j,hj⟩ := hc
  obtain ⟨⟨w,u⟩,hu,rfl⟩ := Option.map_eq_some_iff.mp hstep
  have hw : w = 0 := word_zero_of_frees hf hu
  refine ⟨hw,not_unlocking_of_word_zero ht hw,j,?_⟩
  have hji : j ≠ i := by
    rintro rfl
    exact hj (not_parked_of_frees hf)
  change ((s.set i u).thread j).pc.parked = true
  rw [parked_set,if_neg hji]
  simpa using hj

/-- A run never reaches a free lock with a thread asleep on it exactly when none of its steps
frees the lock while a thread is asleep. -/
theorem no_lost_wakeup_iff [Fintype ι] (es : List (Label ι)) :
    Always uninterrupted (fun s => ¬ s.LostWakeup) State.initial es ↔
      Guarded uninterrupted FreesUnwatched State.initial es := by
  refine always_iff_guarded parkInv_step ?_ ?_ initial_parkInv
  · rintro s hs ⟨hw,-,j,hj⟩
    rw [hs.awake hw j] at hj
    contradiction
  · intro s e t hs hc h hP
    exact hP (lostWakeup_of_frees s e t hs hc h)

/-! ### A waiter that spins 256 times and then sleeps for good -/

lemma saturatingSucc_of_lt {k : ℕ} (hk : k < 256) : saturatingSucc k = k+1 := by
  unfold saturatingSucc
  omega

lemma backoff_ne_futexWait {k : ℕ} (hk : k < 256) : backoff k ≠ .futexWait := by
  unfold backoff
  split_ifs <;> simp

lemma threadStep_contended {w : Word} (hw : w ≠ 0) (k sh ex : ℕ) (spurious : Bool) :
    threadStep w ⟨.lockExclusive k,sh,ex⟩ spurious =
      some (w,⟨.lockExclusiveBackoff k ⟨w,hw⟩,sh,ex⟩) := dif_neg hw

lemma threadStep_backoff {w : Word} {e : Contended} {k : ℕ} (hk : k < 256) (sh ex : ℕ)
    (spurious : Bool) : threadStep w ⟨.lockExclusiveBackoff k e,sh,ex⟩ spurious =
      some (w,⟨.lockExclusive (k+1),sh,ex⟩) := by
  simp only [threadStep,backoff_ne_futexWait hk,false_and,if_false,saturatingSucc_of_lt hk]

/-- `n` failed rounds of `lock_exclusive` against a word that stays contended. -/
lemma lockExclusive_rounds (s : State ι) (i : ι) (hw : s.word ≠ 0) (n k sh ex : ℕ)
    (hk : k+n ≤ 256) (ht : s.thread i = ⟨.lockExclusive k,sh,ex⟩) :
    run uninterrupted s (List.replicate (2*n) (.run i false)) =
      some (s.set i ⟨.lockExclusive (k+n),sh,ex⟩) := by
  induction n generalizing s k with
  | zero =>
    simp only [Nat.mul_zero,List.replicate_zero,run_nil,Nat.add_zero,← ht]
    simp [State.set]
  | succ n ih =>
    have h1 : uninterrupted s (.run i false) =
        some (s.set i ⟨.lockExclusiveBackoff k ⟨s.word,hw⟩,sh,ex⟩) := by
      simp only [uninterrupted,step,ht,threadStep_contended hw,Option.map_some]
      rfl
    have h2 : uninterrupted (s.set i ⟨.lockExclusiveBackoff k ⟨s.word,hw⟩,sh,ex⟩) (.run i false) =
        some (s.set i ⟨.lockExclusive (k+1),sh,ex⟩) := by
      simp only [uninterrupted,step,State.set,Function.update_self,Function.update_idem,
        threadStep_backoff (show k < 256 by omega),Option.map_some]
    have h3 := ih (s.set i ⟨.lockExclusive (k+1),sh,ex⟩) hw (k+1) (by omega) (by simp [State.set])
    have hl : 2*(n+1) = 2*n+1+1 := by omega
    rw [hl,List.replicate_succ,List.replicate_succ,run_cons,h1,Option.bind_some,run_cons,h2,
      Option.bind_some,h3]
    simp only [State.set,Function.update_idem,Nat.add_assoc,Nat.add_comm 1 n]

end Threads

/-- Thread `a` takes the lock, thread `b` spins until it parks, thread `a` unlocks. -/
def parkedForever {ι : Type*} (a b : ι) : List (Label ι) :=
  [.call a .lockExclusive,.run a false,.call b .lockExclusive]++
    List.replicate (2*256) (.run b false)++
    [.run b false,.run b false,.call a .unlockExclusive,.run a false]

/-- Thread `a` holds the lock and thread `b` has just called `lock_exclusive`. -/
def contended {ι : Type*} [DecidableEq ι] (a b : ι) : State ι :=
  { ((State.initial.set a ⟨.lockExclusive 0,0,0⟩).set a ⟨.idle none,0,1⟩).set b
      ⟨.lockExclusive 0,0,0⟩ with word := exclusiveBit }

theorem lost_wakeup_reached :
    ∃ s, run uninterrupted (State.initial : State (Fin 2)) (parkedForever 0 1) = some s ∧
      s.LostWakeup := by
  have hstart : run uninterrupted (State.initial : State (Fin 2))
      [.call 0 .lockExclusive,.run 0 false,.call 1 .lockExclusive] = some (contended 0 1) := rfl
  have hspin := lockExclusive_rounds (contended (0 : Fin 2) 1) 1 (by decide) 256 0 0 0 le_rfl rfl
  obtain ⟨t,ht,hz,hu,hp⟩ : ∃ t,
      run uninterrupted ((contended (0 : Fin 2) 1).set 1 ⟨.lockExclusive 256,0,0⟩)
      [.run 1 false,.run 1 false,.call 0 .unlockExclusive,.run 0 false] = some t ∧ t.word = 0 ∧
      (∀ i, (t.thread i).pc.unlocking = false) ∧ (t.thread 1).pc.parked = true :=
    ⟨_,rfl,rfl,by decide,rfl⟩
  refine ⟨t,?_,hz,hu,1,hp⟩
  unfold parkedForever
  rw [run_append,run_append,hstart,Option.bind_some,hspin,Option.bind_some]
  exact ht

end WinterLily.Sync
