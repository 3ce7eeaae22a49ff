import WinterLily.Base.ReaderWriter
import WinterLily.Sync.Futex
import Mathlib.Tactic.NormNum

/-! Every interleaving of the futex lock refines the abstract reader-writer lock, and the word
is the pair of its counters packed with the writer in bit 31. The packing stays injective up to
the shared count 2^31 that lands on that bit. -/
namespace WinterLily.Sync
open WinterLily.Transition WinterLily.ReaderWriter

/-- The caller is about to give a hold back. -/
def Pc.releasing : Pc → Bool
  | .unlockExclusive | .unlockShared | .downgrade => true
  | _ => false

/-- Asleep inside `futex::wait`. -/
def Pc.parked : Pc → Bool
  | .lockExclusiveParked _ | .lockSharedParked _ _ => true
  | _ => false

/-- Everything one atomic instruction can do. A thread parks only on a nonzero word. -/
inductive Move : Word → Thread → Word → Thread → Prop
  | quiet {w t} (pc : Pc) (hr : pc.releasing = false) (hp : pc.parked = true → w ≠ 0) :
      Move w t w { t with pc := pc }
  | acquireExclusive {t} (r : Option Bool) :
      Move 0 t exclusiveBit { t with pc := .idle r, exclusive := t.exclusive+1 }
  | acquireShared {w t} (r : Option Bool) (hw : w &&& exclusiveBit = 0) :
      Move w t (w+1) { t with pc := .idle r, shared := t.shared+1 }
  | releaseExclusive {w t} (hpc : t.pc = .unlockExclusive) :
      Move w t 0 { t with pc := .idle none, exclusive := t.exclusive-1 }
  | releaseShared {w t} (hpc : t.pc = .unlockShared) :
      Move w t (w-1) { t with pc := .idle none, shared := t.shared-1 }
  | downgrade {w t} (hpc : t.pc = .downgrade) :
      Move w t 1 { pc := .idle none, shared := t.shared+1, exclusive := t.exclusive-1 }

lemma ne_zero_of_bit {w : Word} (h : w &&& exclusiveBit ≠ 0) : w ≠ 0 := by
  rintro rfl
  exact h (by decide)

theorem threadStep_move {w w' : Word} {t t' : Thread} {spurious : Bool}
    (h : threadStep w t spurious = some (w',t')) : Move w t w' t' := by
  rcases t with ⟨pc,sh,ex⟩
  cases pc with
  | idle r => simp [threadStep] at h
  | lockExclusiveParked step => simp [threadStep] at h
  | lockSharedParked step load => simp [threadStep] at h
  | lockExclusive step =>
    simp only [threadStep] at h
    split_ifs at h with h0 h1
    · cases h
      exact .quiet (.lockExclusive step) rfl (by simp [Pc.parked])
    · cases h
      rw [h0]
      exact .acquireExclusive none
    · cases h
      exact .quiet _ rfl (by simp [Pc.parked])
  | lockExclusiveBackoff step e =>
    simp only [threadStep] at h
    split_ifs at h with h0
    · cases h
      refine .quiet _ rfl (fun _ => ?_)
      rw [h0.2]
      exact e.property
    · cases h
      exact .quiet _ rfl (by simp [Pc.parked])
  | lockShared step load =>
    simp only [threadStep] at h
    split_ifs at h with hb h0 h1
    · cases h
      rw [h0.1]
      exact .acquireShared none hb
    · cases h
      exact .quiet _ rfl (by simp [Pc.parked])
    · cases h
      refine .quiet _ rfl (fun _ => ?_)
      rw [h1.2]
      exact ne_zero_of_bit hb
    · cases h
      exact .quiet _ rfl (by simp [Pc.parked])
  | tryLockExclusive =>
    simp only [threadStep] at h
    split_ifs at h with h0
    · cases h
      rw [h0]
      exact .acquireExclusive (some true)
    · cases h
      exact .quiet _ rfl (by simp [Pc.parked])
  | tryLockSharedLoad =>
    simp only [threadStep] at h
    cases h
    exact .quiet _ rfl (by simp [Pc.parked])
  | tryLockShared load =>
    simp only [threadStep] at h
    split_ifs at h with hb h0
    · cases h
      rw [h0.1]
      exact .acquireShared (some true) hb
    · cases h
      exact .quiet _ rfl (by simp [Pc.parked])
    · cases h
      exact .quiet _ rfl (by simp [Pc.parked])
  | unlockExclusive => cases h; exact .releaseExclusive rfl
  | unlockShared => cases h; exact .releaseShared rfl
  | downgrade => cases h; exact .downgrade rfl

/-! ### The packed word -/

lemma exclusiveBit_toNat : exclusiveBit.toNat = 2^31 := by decide

/-- A clear bit 31 leaves room for one more shared hold. -/
lemma bit_clear_iff (w : Word) : w &&& exclusiveBit = 0 ↔ w.toNat < 2^31 := by
  have hb : exclusiveBit = BitVec.twoPow 32 31 := by decide
  have hm : w.getLsbD 31 = decide (2^31 ≤ w.toNat) := by
    rw [← BitVec.msb_eq_getLsbD_last,BitVec.msb_eq_decide]
  rw [hb,BitVec.and_twoPow,hm]
  simp

lemma toNat_succ_of_bit_clear {w : Word} (h : w &&& exclusiveBit = 0) :
    (w+1).toNat = w.toNat+1 := by
  have hlt := (bit_clear_iff _).mp h
  rw [BitVec.toNat_add]
  change (w.toNat+1) % 2^32 = w.toNat+1
  omega

lemma toNat_pred_of_pos {w : Word} (h : 0 < w.toNat) : (w-1).toNat = w.toNat-1 := by
  have hlt := w.isLt
  rw [BitVec.toNat_sub]
  change (2^32-1+w.toNat) % 2^32 = w.toNat-1
  omega

section Threads

variable {ι : Type*} [Fintype ι]

def State.sharedHolders (s : State ι) : ℕ := ∑ i, (s.thread i).shared
def State.exclusiveHolders (s : State ι) : ℕ := ∑ i, (s.thread i).exclusive

/-- The abstract lock a concrete state stands for. -/
def State.holds (s : State ι) : Holds := ⟨s.sharedHolders,s.exclusiveHolders⟩

/-- A thread inside a releasing function owns what it is about to release. -/
def Thread.Owns (t : Thread) : Prop :=
  (t.pc = .unlockExclusive ∨ t.pc = .downgrade → 0 < t.exclusive) ∧
  (t.pc = .unlockShared → 0 < t.shared)

lemma Thread.owns_of_not_releasing {t : Thread} (h : t.pc.releasing = false) : t.Owns := by
  refine ⟨?_,?_⟩
  · rintro (h' | h') <;> rw [h'] at h <;> exact absurd h (by decide)
  · intro h'; rw [h'] at h; exact absurd h (by decide)

/-- The invariant: counters packed in the word, exclusion, and rightful releases. -/
structure Inv (s : State ι) : Prop where
  word : s.word.toNat = s.sharedHolders+2^31*s.exclusiveHolders
  exclusion : s.holds.Exclusion
  owns : ∀ i, (s.thread i).Owns

theorem initial_inv : Inv (State.initial : State ι) where
  word := by simp [State.initial,State.sharedHolders,State.exclusiveHolders]
  exclusion := by simp [State.initial,State.holds,Holds.Exclusion,State.sharedHolders,
    State.exclusiveHolders]
  owns _ := Thread.owns_of_not_releasing rfl

/-- One thread holds at most what all of them hold. -/
lemma thread_le_holders (s : State ι) (i : ι) :
    (s.thread i).exclusive ≤ s.exclusiveHolders ∧ (s.thread i).shared ≤ s.sharedHolders :=
  ⟨le_sum_threads Thread.exclusive s.thread i,le_sum_threads Thread.shared s.thread i⟩

variable [DecidableEq ι]

lemma sharedHolders_set (s : State ι) (i : ι) (t : Thread) :
    (s.set i t).sharedHolders+(s.thread i).shared = s.sharedHolders+t.shared :=
  sum_update_add Thread.shared s.thread i t

lemma exclusiveHolders_set (s : State ι) (i : ι) (t : Thread) :
    (s.set i t).exclusiveHolders+(s.thread i).exclusive = s.exclusiveHolders+t.exclusive :=
  sum_update_add Thread.exclusive s.thread i t

omit [Fintype ι] in
lemma owns_set {s : State ι} (h : ∀ j, (s.thread j).Owns) {i : ι} {t : Thread} (ht : t.Owns) :
    ∀ j, ((s.set i t).thread j).Owns := by
  intro j
  by_cases hj : j = i
  · subst j; simpa [State.set] using ht
  · simpa [State.set,hj] using h j

/-- A step that keeps the thread's holds and the word is a stutter of the abstract lock. -/
lemma quiet_refines {s : State ι} (hs : Inv s) (i : ι) (pc : Pc) (wakes : ℕ)
    (ho : Thread.Owns { s.thread i with pc := pc }) :
    Holds.Step s.holds (State.holds { s.set i { s.thread i with pc := pc } with wakes := wakes }) ∧
      Inv { s.set i { s.thread i with pc := pc } with wakes := wakes } := by
  have hsh : (s.set i { s.thread i with pc := pc }).sharedHolders = s.sharedHolders := by
    have := sharedHolders_set s i { s.thread i with pc := pc }
    simpa using this
  have hex : (s.set i { s.thread i with pc := pc }).exclusiveHolders = s.exclusiveHolders := by
    have := exclusiveHolders_set s i { s.thread i with pc := pc }
    simpa using this
  have hh : State.holds { s.set i { s.thread i with pc := pc } with wakes := wakes } = s.holds :=
    Holds.ext hsh hex
  refine ⟨hh ▸ .stay _,⟨?_,hh ▸ hs.exclusion,owns_set hs.owns ho⟩⟩
  change s.word.toNat = (s.set i _).sharedHolders+2^31*(s.set i _).exclusiveHolders
  rw [hsh,hex]
  exact hs.word

/-- One atomic instruction is one move of the abstract lock. -/
theorem move_refines {s : State ι} (hs : Inv s) {i : ι} {w : Word} {t : Thread}
    (hm : Move s.word (s.thread i) w t) :
    Holds.Step s.holds (State.holds { s.set i t with word := w }) ∧
      Inv { s.set i t with word := w } := by
  have hword := hs.word
  have howns := hs.owns i
  have hexcl := hs.exclusion
  have hsh := sharedHolders_set s i t
  have hex := exclusiveHolders_set s i t
  obtain ⟨hle,hls⟩ := thread_le_holders s i
  have hlt := s.word.isLt
  generalize hS : s.sharedHolders = S at *
  generalize hE : s.exclusiveHolders = E at *
  have hholds : s.holds = ⟨S,E⟩ := Holds.ext hS hE
  rw [hholds] at hexcl ⊢
  have hexcl' := hexcl
  simp only [Holds.Exclusion] at hexcl'
  -- It is enough to name the abstract move and to recompute the packed word.
  suffices h : ∃ S' E', (s.set i t).sharedHolders = S' ∧ (s.set i t).exclusiveHolders = E' ∧
      Holds.Step ⟨S,E⟩ ⟨S',E'⟩ ∧ w.toNat = S'+2^31*E' ∧ t.Owns by
    obtain ⟨S',E',hS',hE',hstep,hw,ho⟩ := h
    have hh : State.holds { s.set i t with word := w } = ⟨S',E'⟩ := Holds.ext hS' hE'
    rw [hh]
    refine ⟨hstep,?_,?_,owns_set hs.owns ho⟩
    · change w.toNat = (s.set i t).sharedHolders+2^31*(s.set i t).exclusiveHolders
      rw [hS',hE',hw]
    · rw [hh]
      exact hstep.exclusion hexcl
  generalize hsi : s.thread i = ti at *
  generalize hsw : s.word = ws at *
  generalize (s.set i t).sharedHolders = S' at hsh ⊢
  generalize (s.set i t).exclusiveHolders = E' at hex ⊢
  cases hm with
  | quiet pc hr hp =>
    simp only at hsh hex
    obtain rfl : S' = S := by omega
    obtain rfl : E' = E := by omega
    exact ⟨S',E',rfl,rfl,.stay _,hword,Thread.owns_of_not_releasing hr⟩
  | acquireExclusive r =>
    simp only at hsh hex
    change 0 = S+2^31*E at hword
    obtain ⟨rfl,rfl⟩ : S = 0 ∧ E = 0 := by omega
    refine ⟨0,1,by omega,by omega,.acquireExclusive,?_,Thread.owns_of_not_releasing rfl⟩
    rw [exclusiveBit_toNat]
    omega
  | acquireShared r hw =>
    have hbit := (bit_clear_iff _).mp hw
    simp only at hsh hex
    obtain rfl : E = 0 := by omega
    refine ⟨S+1,0,by omega,by omega,.acquireShared S,?_,Thread.owns_of_not_releasing rfl⟩
    rw [toNat_succ_of_bit_clear hw]
    omega
  | releaseExclusive hpc =>
    have hpos := howns.1 (.inl hpc)
    simp only at hsh hex
    obtain rfl : E = 1 := by omega
    refine ⟨S,0,by omega,by omega,.releaseExclusive S 0,?_,Thread.owns_of_not_releasing rfl⟩
    change 0 = S+2^31*0
    omega
  | releaseShared hpc =>
    have hpos := howns.2 hpc
    simp only at hsh hex
    obtain ⟨R,rfl⟩ : ∃ R, S = R+1 := ⟨S-1,by omega⟩
    refine ⟨R,E,by omega,by omega,.releaseShared R E,?_,Thread.owns_of_not_releasing rfl⟩
    rw [toNat_pred_of_pos (by omega)]
    omega
  | downgrade hpc =>
    have hpos := howns.1 (.inr hpc)
    simp only at hsh hex
    obtain rfl : E = 1 := by omega
    refine ⟨S+1,0,by omega,by omega,.downgrade S 0,?_,Thread.owns_of_not_releasing rfl⟩
    change 1 = S+1+2^31*0
    omega

lemma Call.owns_entry {c : Call} {t : Thread} (h : c.allowed t = true) :
    Thread.Owns { t with pc := c.entry } := by
  cases c <;> simp_all [Thread.Owns,Call.entry,Call.allowed]

omit [Fintype ι] [DecidableEq ι] in
/-- Waking up only puts the thread back at the head of its own loop. -/
lemma unpark_eq {t u : Thread} (h : unpark t = some u) :
    t.pc.parked = true ∧ u = { t with pc := u.pc } ∧ u.pc.releasing = false ∧
      u.pc.parked = false := by
  rcases t with ⟨pc,sh,ex⟩
  cases pc <;> simp only [unpark,reduceCtorEq,Option.some.injEq] at h <;> subst h <;>
    exact ⟨rfl,rfl,rfl,rfl⟩

/-- Every transition of the machine refines the abstract reader-writer lock. -/
theorem step_refines {s t : State ι} {e : Label ι} (hs : Inv s) (h : step s e = some t) :
    Holds.Step s.holds t.holds ∧ Inv t := by
  cases e with
  | call i c =>
    simp only [step] at h
    split at h
    · split_ifs at h with ha
      cases h
      exact quiet_refines hs i c.entry s.wakes (Call.owns_entry ha)
    · contradiction
  | run i spurious =>
    obtain ⟨⟨w,u⟩,hu,rfl⟩ := Option.map_eq_some_iff.mp h
    exact move_refines hs (threadStep_move hu)
  | resume i =>
    simp only [step] at h
    split_ifs at h with hw
    obtain ⟨u,hu,rfl⟩ := Option.map_eq_some_iff.mp h
    obtain ⟨-,he,hr,-⟩ := unpark_eq hu
    rw [he]
    exact quiet_refines hs i u.pc (s.wakes-1) (Thread.owns_of_not_releasing hr)
  | interrupt i =>
    obtain ⟨u,hu,rfl⟩ := Option.map_eq_some_iff.mp h
    obtain ⟨-,he,hr,-⟩ := unpark_eq hu
    rw [he]
    exact quiet_refines hs i u.pc s.wakes (Thread.owns_of_not_releasing hr)

theorem step_inv (s : State ι) (e : Label ι) (t : State ι) (hs : Inv s)
    (h : step s e = some t) : Inv t := (step_refines hs h).2

/-- In every reachable state there is at most one exclusive holder, no shared holder beside it,
and the word is the shared count plus 2^31 for the exclusive holder. -/
theorem reachable_mutual_exclusion (es : List (Label ι)) (s : State ι)
    (h : run step State.initial es = some s) :
    s.exclusiveHolders ≤ 1 ∧ (0 < s.exclusiveHolders → s.sharedHolders = 0) ∧
      s.word.toNat = s.sharedHolders+2^31*s.exclusiveHolders := by
  have hi : Inv s := run_invariant step_inv initial_inv h
  exact ⟨hi.exclusion.1,hi.exclusion.2,hi.word⟩

/-- One thread owning `n` shared holds and nobody else inside the lock. -/
def State.readers (i : ι) (n : ℕ) : State ι :=
  { (State.initial : State ι).set i ⟨.idle none,n,0⟩ with word := BitVec.ofNat 32 n }

omit [Fintype ι] in
lemma readers_succ (i : ι) {n : ℕ} (hn : n < 2^31) :
    run step (State.readers i n) [.call i .lockShared,.run i true,.run i false] =
      some (State.readers i (n+1)) := by
  have hb : BitVec.ofNat 32 n &&& exclusiveBit = 0 := by
    rw [bit_clear_iff,BitVec.toNat_ofNat]
    omega
  have hs : BitVec.ofNat 32 n+1#32 = BitVec.ofNat 32 (n+1) := by rw [BitVec.ofNat_add]
  simp [State.readers,step,threadStep,State.set,Call.entry,Call.allowed,hb,hs]

lemma readers_holders (i : ι) (n : ℕ) :
    (State.readers i n).sharedHolders = n ∧ (State.readers i n).exclusiveHolders = 0 := by
  have hsh := sharedHolders_set (State.initial : State ι) i ⟨.idle none,n,0⟩
  have hex := exclusiveHolders_set (State.initial : State ι) i ⟨.idle none,n,0⟩
  have hs0 : (State.initial : State ι).sharedHolders = 0 := Finset.sum_const_zero
  have he0 : (State.initial : State ι).exclusiveHolders = 0 := Finset.sum_const_zero
  rw [hs0,Nat.zero_add] at hsh
  rw [he0,Nat.zero_add] at hex
  exact ⟨hsh,hex⟩

/-- The case the comment in `lock_shared` allows for is reachable: 2^31 shared holds, whose count
reads as the exclusive bit. -/
theorem shared_count_reaches_bit (i : ι) :
    ∃ es s, run step (State.initial : State ι) es = some s ∧ s.sharedHolders = 2^31 ∧
      s.exclusiveHolders = 0 ∧ s.word = exclusiveBit := by
  have climb : ∀ n, n ≤ 2^31 →
      ∃ es, run step (State.initial : State ι) es = some (State.readers i n) := by
    intro n hn
    induction n with
    | zero =>
      refine ⟨[],?_⟩
      have hz : Function.update (State.initial : State ι).thread i ⟨.idle none,0,0⟩ =
          (State.initial : State ι).thread := Function.update_eq_self i _
      simp [State.readers,State.set,hz]
      rfl
    | succ n ih =>
      obtain ⟨es,hes⟩ := ih (by omega)
      refine ⟨es++[.call i .lockShared,.run i true,.run i false],?_⟩
      rw [run_append,hes]
      exact readers_succ i (by omega)
  obtain ⟨es,hes⟩ := climb (2^31) le_rfl
  exact ⟨es,_,hes,(readers_holders i _).1,(readers_holders i _).2,rfl⟩

end Threads

/-- A reader comes and goes, a writer downgrades, a second reader joins. -/
def handover {ι : Type*} (a b c : ι) : List (Label ι) :=
  [.call a .lockShared,.run a false,.call b .tryLockExclusive,.run b false,
   .call a .unlockShared,.run a false,.call b .lockExclusive,.run b true,.run b false,
   .call b .downgrade,.run b false,.call c .lockShared,.run c false,.run c false]

theorem reachable_mutual_exclusion_handover :
    ∃ s, run step State.initial (handover (0 : Fin 3) 1 2) = some s ∧ s.word = 2 ∧
      s.exclusiveHolders ≤ 1 ∧ s.word.toNat = s.sharedHolders+2^31*s.exclusiveHolders := by
  obtain ⟨s,hs,hw⟩ : ∃ s, run step State.initial (handover (0 : Fin 3) 1 2) = some s ∧
      s.word = 2 := ⟨_,rfl,rfl⟩
  have h := reachable_mutual_exclusion (handover 0 1 2) s hs
  exact ⟨s,hs,hw,h.1,h.2.2⟩

end WinterLily.Sync
