import WinterLily.Once.Initialisation

/-! Waiters after initialisation. A waiter that sees `INIT` with the lock bit clear has itself just
set that bit and never clears it, so it leaves, and every other waiter spins on its bit. -/
namespace WinterLily.Once
open WinterLily.Transition

variable {ι V E : Type*} [DecidableEq ι]

def Pc.spinning : Pc V → Bool
  | .spin _ => true
  | _ => false

/-- The machine in which an initialiser that runs succeeds. -/
def succeeding (s : State ι V) : Label ι V E → Option (State ι V)
  | .call i c => step s (.call i c : Label ι V E)
  | .run i =>
    match s.pc i with
    | .running none => none
    | _ => step s (.run i : Label ι V E)

/-- Thread `i` on its own for `n` steps. -/
def solo (s : State ι V) (i : ι) (n : ℕ) : Option (State ι V) :=
  run step s (List.replicate n (.run i : Label ι V Unit))

/-- Running alone, the thread returns a reference to the value the cell holds. -/
def State.Leaves (s : State ι V) (i : ι) : Prop :=
  ∃ n t v, solo s i n = some t ∧ t.pc i = .returned (.reference (some v)) ∧ s.writes.head? = some v

/-- Once the lock is initialised, every thread in the wait loop can leave on its own. -/
def State.WaitersLeave (s : State ι V) : Prop :=
  s.lock.has Flag.init = true → ∀ i, (s.pc i).spinning = true → s.Leaves i

/-- A `fetch_or` on an initialised word finds the lock bit clear and no other waiter. -/
def LastWaiter (s : State ι V) : Label ι V E → Prop
  | .call _ _ => True
  | .run i => (s.pc i).fetching = true → s.lock.has Flag.init = true →
      s.lock.has Flag.lock = false ∧ ∀ j, j ≠ i → (s.pc j).spinning = false

lemma succeeding_step {s t : State ι V} {e : Label ι V E} (h : succeeding s e = some t) :
    step s e = some t := by
  cases e with
  | call i c => exact h
  | run i =>
    simp only [succeeding] at h
    split at h
    · contradiction
    · exact h

/-- The invariant of the runs whose initialisers succeed: no failing path is under way, and a
waiter at an initialised lock has a clear bit in front of it. -/
structure WaitInv (s : State ι V) : Prop where
  phase : Phase s
  sound : s.lock.has Flag.poisoned = false
  nofail : ∀ i, s.pc i ≠ .failing ∧ s.pc i ≠ .dropping
  clear : s.lock.has Flag.init = true → ∀ i, (s.pc i).spinning = true → s.lock.has Flag.lock = false

omit [DecidableEq ι] in
theorem initial_waitInv : WaitInv (State.initial : State ι V) :=
  ⟨initial_phase,by simp [State.initial,Flags.has],fun _ => ⟨nofun,nofun⟩,
    fun hi => by simp [State.initial,Flags.has] at hi⟩

omit [DecidableEq ι] in
/-- The only phase with `INIT` in the word is the initialised one. -/
lemma ready_of_init {s : State ι V} (hs : Phase s) (hi : s.lock.has Flag.init = true) :
    (s.lock = Flag.init ∨ s.lock = Flag.init ||| Flag.lock) ∧ ∃ v, s.writes = [v] := by
  cases hs with
  | free hl hw hr ho | owned k hl hw hr h ho | publishing k v hl hw hr h ho
  | unwinding k hl hw hr h ho =>
    rw [hl] at hi
    exact absurd hi (by decide)
  | poisoned hl hw hr ho => rcases hl with hl | hl <;> rw [hl] at hi <;> exact absurd hi (by decide)
  | ready v hl hw hr ho => exact ⟨hl,v,hw⟩

lemma step_run {s : State ι V} {i : ι} {r : Memory V × Pc V}
    (h : threadStep s.toMemory (s.pc i) = some r) :
    step s (.run i : Label ι V E) = some (s.put i r) := by
  simp only [step,h,Option.map_some]

/-- Three steps out of the loop: the fetch, the poison check, the reference. -/
lemma leaves_of_clear {s : State ι V} {i : ι} {f : Option V} {v : V} (hl : s.lock = Flag.init)
    (hw : s.writes = [v]) (hi : s.pc i = .spin f) : s.Leaves i := by
  let s₁ := s.put i ({ s.toMemory with lock := Flag.init ||| Flag.lock },.recheck f Flag.init)
  let s₂ := s₁.put i (s₁.toMemory,.deliver)
  let s₃ := s₂.put i ({ s₂.toMemory with refs := some v::s₂.refs },.returned (.reference (some v)))
  have h₁ : step s (.run i : Label ι V Unit) = some s₁ := by
    apply step_run
    simp only [hi,threadStep,fetchLock,hl]
    rw [if_neg (by decide)]
  have h₂ : step s₁ (.run i : Label ι V Unit) = some s₂ := by
    apply step_run
    simp [s₁,threadStep,Flags.has,Flag.init,Flag.lock,Flag.poisoned]
  have h₃ : step s₂ (.run i : Label ι V Unit) = some s₃ := by
    apply step_run
    simp only [s₂,s₁,put_pc_self,threadStep,put_toMemory,hw,List.head?_cons]
  refine ⟨3,s₃,v,?_,by simp [s₃],by simp [hw]⟩
  simp only [solo,List.replicate_succ,List.replicate_zero,run_cons,h₁,h₂,h₃,Option.bind_some,
    run_nil]

/-- With both bits set the fetch changes nothing, so the thread never moves. -/
lemma solo_stuck {s : State ι V} {i : ι} {f : Option V} (hl : s.lock = Flag.init ||| Flag.lock)
    (hi : s.pc i = .spin f) (n : ℕ) : solo s i n = some s := by
  have hstep : step s (.run i : Label ι V Unit) = some s := by
    have hf : fetchLock s.toMemory f = (s.toMemory,.spin f) := by
      have hl' : s.lock ||| Flag.lock = s.lock := by rw [hl]; decide
      simp only [fetchLock,hl']
      rw [if_pos (by rw [hl]; decide)]
    have hput : s.put i (s.toMemory,.spin f) = s := by simp [State.put,← hi]
    rw [step_run (r := (s.toMemory,.spin f)),hput]
    rw [hi,← hf]
    rfl
  induction n with
  | zero => rfl
  | succ n ih =>
    simp only [solo,List.replicate_succ,run_cons,hstep,Option.bind_some]
    exact ih

lemma not_leaves_of_stuck {s : State ι V} {i : ι} (hl : s.lock = Flag.init ||| Flag.lock)
    (hi : (s.pc i).spinning = true) : ¬ s.Leaves i := by
  rintro ⟨n,t,v,hn,ht,-⟩
  cases hpc : s.pc i with
  | spin f =>
    rw [solo_stuck hl hpc n] at hn
    cases hn
    rw [hpc] at ht
    contradiction
  | _ => simp [hpc,Pc.spinning] at hi

theorem WaitInv.waitersLeave {s : State ι V} (hs : WaitInv s) : s.WaitersLeave := by
  intro hinit i hi
  obtain ⟨hl,v,hw⟩ := ready_of_init hs.phase hinit
  have hclear := hs.clear hinit i hi
  have hlock : s.lock = Flag.init := by
    rcases hl with hl | hl
    · exact hl
    · rw [hl] at hclear
      exact absurd hclear (by decide)
  cases hpc : s.pc i with
  | spin f => exact leaves_of_clear hlock hw hpc
  | _ => simp [hpc,Pc.spinning] at hi

/-! ### What one step does to the waiters -/

/-- A step of a thread that is not fetching changes the word only by publishing. -/
lemma lock_of_not_fetching {g g' : Memory V} {p p' : Pc V} (hf : p.fetching = false)
    (hfail : p ≠ .failing ∧ p ≠ .dropping) (h : threadStep g p = some (g',p')) :
    (g'.lock = g.lock ∨ g'.lock = Flag.init) ∧ p'.spinning = false ∧ p' ≠ .dropping ∧
      (p ≠ .running none → p' ≠ .failing) := by
  cases p with
  | idle | returned o => simp [threadStep] at h
  | isInit f | checkPoison f | recheck f m =>
    simp only [threadStep,Option.some.injEq,Prod.mk.injEq] at h
    obtain ⟨rfl,rfl⟩ := h
    split_ifs <;> simp [Pc.spinning]
  | fetchOr f | spin f => simp [Pc.fetching] at hf
  | running f =>
    cases f with
    | none | some v =>
      simp only [threadStep,Option.some.injEq,Prod.mk.injEq] at h
      obtain ⟨rfl,rfl⟩ := h
      simp [Pc.spinning]
  | write v | publish | deliver =>
    simp only [threadStep,Option.some.injEq,Prod.mk.injEq] at h
    obtain ⟨rfl,rfl⟩ := h
    simp [Pc.spinning]
  | failing => exact absurd rfl hfail.1
  | dropping => exact absurd rfl hfail.2

lemma has_or_lock (w flag : Flags) (h : Flag.lock &&& flag = 0#64) :
    (w ||| Flag.lock).has flag = w.has flag := by
  have hd : (w ||| Flag.lock) &&& flag = w &&& flag ||| Flag.lock &&& flag := by
    ext k
    simp [Bool.and_or_distrib_right]
  rw [Flags.has,hd,h,BitVec.or_zero,Flags.has]

lemma threadStep_fetching {g : Memory V} {p : Pc V} (h : p.fetching = true) :
    ∃ f, threadStep g p = some (fetchLock g f) := by
  cases p with
  | fetchOr f => exact ⟨f,rfl⟩
  | spin f => exact ⟨f,rfl⟩
  | _ => simp [Pc.fetching] at h

theorem waitInv_step (s : State ι V) (e : Label ι V E) (t : State ι V) (hs : WaitInv s)
    (hc : LastWaiter s e) (h : succeeding s e = some t) : WaitInv t := by
  have hstep := succeeding_step h
  have hun : Unraced s e := by
    cases e with
    | call i c => trivial
    | run i => exact fun _ j => (hs.nofail j).2
  have hphase := phase_step s e t hs.phase hun hstep
  cases e with
  | call i c =>
    simp only [step] at hstep
    split_ifs at hstep
    cases hstep
    refine ⟨hphase,hs.sound,fun j => ?_,fun hi j hj => ?_⟩
    · by_cases hji : j = i
      · subst j; simp
      · rw [put_pc_of_ne s hji]
        exact hs.nofail j
    · by_cases hji : j = i
      · subst j; simp [Pc.spinning] at hj
      · rw [put_pc_of_ne s hji] at hj
        exact hs.clear hi j hj
  | run i =>
    obtain ⟨⟨g,p⟩,hr,rfl⟩ := Option.map_eq_some_iff.mp hstep
    cases hf : (s.pc i).fetching with
    | true =>
      obtain ⟨f,hfetch⟩ := threadStep_fetching (g := s.toMemory) hf
      obtain ⟨rfl,rfl⟩ := Prod.mk.inj (Option.some.inj (hr.symm.trans hfetch))
      refine ⟨hphase,?_,fun j => ?_,fun hi j hj => ?_⟩
      · exact (has_or_lock s.lock Flag.poisoned (by decide)).trans hs.sound
      · by_cases hji : j = i
        · subst j
          rw [put_pc_self]
          split_ifs <;> simp
        · rw [put_pc_of_ne s hji]
          exact hs.nofail j
      · -- The fetch took the last clear bit, and nobody is left in the loop to need it.
        have hinit := (has_or_lock s.lock Flag.init (by decide)).symm.trans hi
        obtain ⟨hclear,hothers⟩ := hc hf hinit
        by_cases hji : j = i
        · subst j
          rw [put_pc_self,hclear] at hj
          simp [Pc.spinning] at hj
        · rw [put_pc_of_ne s hji,hothers j hji] at hj
          contradiction
    | false =>
      obtain ⟨hlock,hspin,hdrop,hfail⟩ := lock_of_not_fetching hf (hs.nofail i) hr
      have hrun : s.pc i ≠ .running none := by
        intro hpc
        simp [succeeding,hpc] at h
      refine ⟨hphase,?_,fun j => ?_,fun hi j hj => ?_⟩
      · rcases hlock with hlock | hlock
        · exact (congrArg (fun w => Flags.has w Flag.poisoned) hlock).trans hs.sound
        · rw [put_toMemory,hlock]
          decide
      · by_cases hji : j = i
        · subst j
          rw [put_pc_self]
          exact ⟨hfail hrun,hdrop⟩
        · rw [put_pc_of_ne s hji]
          exact hs.nofail j
      · by_cases hji : j = i
        · subst j
          rw [put_pc_self,hspin] at hj
          contradiction
        · rw [put_pc_of_ne s hji] at hj
          rw [put_toMemory] at hi ⊢
          rcases hlock with hlock | hlock
          · rw [hlock] at hi ⊢
            exact hs.clear hi j hj
          · rw [hlock]
            decide

/-- Fetching an initialised word past another waiter, or into its set bit, strands a thread. -/
lemma stranded_of_fetch (s : State ι V) (e : Label ι V E) (t : State ι V) (hs : WaitInv s)
    (hc : ¬ LastWaiter s e) (h : succeeding s e = some t) : ¬ t.WaitersLeave := by
  have hstep := succeeding_step h
  cases e with
  | call i c => exact absurd trivial hc
  | run i =>
    simp only [LastWaiter,not_forall] at hc
    obtain ⟨hf,hinit,hc⟩ := hc
    obtain ⟨⟨g,p⟩,hr,rfl⟩ := Option.map_eq_some_iff.mp hstep
    obtain ⟨f,hfetch⟩ := threadStep_fetching (g := s.toMemory) hf
    obtain ⟨rfl,rfl⟩ := Prod.mk.inj (Option.some.inj (hr.symm.trans hfetch))
    have hlock : s.lock ||| Flag.lock = Flag.init ||| Flag.lock := by
      rcases (ready_of_init hs.phase hinit).1 with hl | hl
      · rw [hl]
      · rw [hl]; decide
    have hinit' : (s.lock ||| Flag.lock).has Flag.init = true := by rw [hlock]; decide
    intro hleave
    by_cases hset : s.lock.has Flag.lock = true
    · refine not_leaves_of_stuck (i := i) hlock ?_ (hleave hinit' i ?_)
      all_goals
        rw [put_pc_self,if_pos hset]
        rfl
    · have hother : ∃ j, j ≠ i ∧ (s.pc j).spinning = true := by
        by_contra hnone
        push Not at hnone
        exact hc ⟨by simpa using hset,fun j hj => by simpa using hnone j hj⟩
      obtain ⟨j,hji,hj⟩ := hother
      refine not_leaves_of_stuck (i := j) hlock ?_ (hleave hinit' j ?_)
      all_goals
        rw [put_pc_of_ne s hji]
        exact hj

/-- Along a run whose initialisers succeed, every waiter at an initialised lock can leave on its
own exactly when each `fetch_or` on an initialised word finds the lock bit clear and leaves no
other waiter behind. -/
theorem waiters_leave_iff (es : List (Label ι V E)) :
    Always succeeding State.WaitersLeave (State.initial : State ι V) es ↔
      Guarded succeeding LastWaiter State.initial es :=
  always_iff_guarded waitInv_step (fun _ hs => hs.waitersLeave) stranded_of_fetch initial_waitInv

/-- Thread `a` initialises while threads `b` and `c` wait; then thread `b` leaves the loop. -/
def twoWaiters {ι : Type*} (a b c : ι) : List (Label ι ℕ Unit) :=
  [.call a (.set 7),.run a,.run a,.run a,
   .call b .get,.run b,.run b,.run b,.call c .get,.run c,.run c,.run c,
   .run a,.run a,.run a,.run a,.run b]

theorem waiter_stranded :
    ∃ s, run succeeding (State.initial : State (Fin 3) ℕ) (twoWaiters 0 1 2) = some s ∧
      s.lock.has Flag.init = true ∧ (s.pc 2).spinning = true ∧ ¬ s.WaitersLeave := by
  refine ⟨_,rfl,by decide,rfl,fun h => ?_⟩
  exact not_leaves_of_stuck (by decide) rfl (h (by decide) 2 rfl)

end WinterLily.Once
