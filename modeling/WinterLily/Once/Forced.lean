import WinterLily.Once.Initialisation

/-! `LazyLock` of `wl-helpers/src/lib.rs` under threads that only `force` it, as the statics of
`GetSystemInfo` are. The initialiser sits in a plain `Cell` beside the `OnceLock`; only the closure
that `force` passes to `get_or_init` touches it. -/
namespace WinterLily.Once
open WinterLily.Transition

variable {ι V : Type*}

/-- The initialiser is kept as the value it returns. -/
structure LazyState (ι V : Type*) where
  onceLock : State ι V
  initFn : Option V

inductive LazyLabel (ι : Type*)
  | force (i : ι)
  | run (i : ι)

section Machine

variable [DecidableEq ι]

/-- `LazyLock::new`. -/
def LazyState.new (v : V) : LazyState ι V := ⟨State.initial,some v⟩

/-- The closure of `force`, entered with `running none`: it takes the initialiser and runs it, or
panics, and then the dropped `PoisonOnDrop` poisons the lock. -/
def LazyState.enter (s : LazyState ι V) (i : ι) : LazyState ι V :=
  match s.initFn with
  | some v => ⟨s.onceLock.put i (s.onceLock.toMemory,.running (some v)),none⟩
  | none => ⟨s.onceLock.put i
      ({ s.onceLock.toMemory with lock := Flag.poisoned },.returned .panicked),none⟩

def LazyState.step (s : LazyState ι V) : LazyLabel ι → Option (LazyState ι V)
  | .force i =>
    if (s.onceLock.pc i).callable then
      some { s with onceLock := s.onceLock.put i (s.onceLock.toMemory,.isInit none) }
    else none
  | .run i =>
    match s.onceLock.pc i with
    | .running none => some (s.enter i)
    | p => (threadStep s.onceLock.toMemory p).map fun r => { s with onceLock := s.onceLock.put i r }

end Machine

/-- A thread that forces a lock whose initialiser returns `v`. -/
def Pc.Forces (v : V) : Pc V → Prop
  | .idle | .publish | .deliver => True
  | .isInit f | .checkPoison f | .fetchOr f | .spin f | .recheck f _ => f = none
  | .running f => f = none ∨ f = some v
  | .write w => w = v
  | .returned o => o = .reference (some v)
  | .failing | .dropping => False

/-- Has the initialiser and has not written its value yet. -/
def Pc.taking : Pc V → Bool
  | .running (some _) | .write _ => true
  | _ => false

/-- The initialiser is in its cell until the owner of the lock takes it. -/
inductive Kept (v : V) (s : LazyState ι V) : Prop
  | fresh (hf : s.initFn = some v) (hw : s.onceLock.writes = [])
      (ho : ∀ i, (s.onceLock.pc i).taking = false)
  | taken (hf : s.initFn = none)
      (ht : s.onceLock.writes ≠ [] ∨ ∃ i, (s.onceLock.pc i).taking = true)

structure LazyInv (v : V) (s : LazyState ι V) : Prop where
  phase : Phase s.onceLock
  forces : ∀ i, (s.onceLock.pc i).Forces v
  clean : s.onceLock.lock.has Flag.poisoned = false
  written : ∀ w ∈ s.onceLock.writes, w = v
  kept : Kept v s

lemma or_lock_clean {l : Flags} (h : l.has Flag.poisoned = false) :
    Flags.has (l ||| Flag.lock) Flag.poisoned = false := by
  have hor : (l ||| Flag.lock) &&& Flag.poisoned = l &&& Flag.poisoned := by
    rw [BitVec.and_or_distrib_right]
    exact BitVec.or_zero
  unfold Flags.has at h ⊢
  rw [hor,h]

/-- One access of a forcing thread outside the closure. -/
lemma forces_step {v : V} {g g' : Memory V} {p p' : Pc V} (hp : p.Forces v) (hne : p ≠ .running none)
    (hclean : g.lock.has Flag.poisoned = false) (hw : ∀ w ∈ g.writes, w = v)
    (hdeliver : p = .deliver → g.writes ≠ []) (h : threadStep g p = some (g',p')) :
    p'.Forces v ∧ g'.lock.has Flag.poisoned = false ∧ (∀ w ∈ g'.writes, w = v) ∧
      (g'.writes = g.writes ∧ p'.taking = p.taking ∨ p.taking = true ∧ g'.writes ≠ []) := by
  cases p with
  | isInit f =>
    simp only [threadStep,Option.some.injEq,Prod.mk.injEq] at h
    obtain ⟨rfl,rfl⟩ := h
    split_ifs
    · exact ⟨trivial,hclean,hw,.inl ⟨rfl,rfl⟩⟩
    · exact ⟨hp,hclean,hw,.inl ⟨rfl,rfl⟩⟩
  | checkPoison f =>
    simp only [threadStep,hclean,Bool.false_eq_true,if_false,Option.some.injEq,Prod.mk.injEq] at h
    obtain ⟨rfl,rfl⟩ := h
    exact ⟨hp,hclean,hw,.inl ⟨rfl,rfl⟩⟩
  | fetchOr f | spin f =>
    simp only [threadStep,fetchLock,Option.some.injEq,Prod.mk.injEq] at h
    obtain ⟨rfl,rfl⟩ := h
    refine ⟨?_,or_lock_clean hclean,hw,.inl ⟨rfl,?_⟩⟩ <;> split_ifs
    · exact hp
    · exact hp
    · rfl
    · rfl
  | recheck f m =>
    obtain rfl : f = none := hp
    simp only [threadStep,hclean,Bool.false_eq_true,if_false,Option.some.injEq,Prod.mk.injEq] at h
    obtain ⟨rfl,rfl⟩ := h
    split_ifs
    · exact ⟨trivial,hclean,hw,.inl ⟨rfl,rfl⟩⟩
    · exact ⟨.inl rfl,hclean,hw,.inl ⟨rfl,rfl⟩⟩
  | running f =>
    rcases hp with rfl | rfl
    · exact absurd rfl hne
    · simp only [threadStep,Option.some.injEq,Prod.mk.injEq] at h
      obtain ⟨rfl,rfl⟩ := h
      exact ⟨rfl,hclean,hw,.inl ⟨rfl,rfl⟩⟩
  | write w =>
    obtain rfl : w = v := hp
    simp only [threadStep,Option.some.injEq,Prod.mk.injEq] at h
    obtain ⟨rfl,rfl⟩ := h
    refine ⟨trivial,hclean,fun x hx => ?_,.inr ⟨rfl,List.cons_ne_nil _ _⟩⟩
    rcases List.mem_cons.mp hx with rfl | hx
    · rfl
    · exact hw x hx
  | publish =>
    simp only [threadStep,Option.some.injEq,Prod.mk.injEq] at h
    obtain ⟨rfl,rfl⟩ := h
    have hinit : Flags.has Flag.init Flag.poisoned = false := by decide
    exact ⟨trivial,hinit,hw,.inl ⟨rfl,rfl⟩⟩
  | deliver =>
    simp only [threadStep,Option.some.injEq,Prod.mk.injEq] at h
    obtain ⟨rfl,rfl⟩ := h
    refine ⟨?_,hclean,hw,.inl ⟨rfl,rfl⟩⟩
    cases hws : g.writes with
    | nil => exact absurd hws (hdeliver rfl)
    | cons w ws =>
      have hwv : w = v := hw w (by simp [hws])
      rw [List.head?_cons,hwv]
      rfl
  | idle | returned o => simp [threadStep] at h
  | failing | dropping => exact absurd hp id

/-- A thread delivers only what has been written. -/
lemma Phase.delivers {s : State ι V} (h : Phase s) {i : ι} (hi : s.pc i = .deliver) :
    s.writes ≠ [] := by
  cases h with
  | free hl hw hr ho => simpa [hi,Pc.outside] using ho i
  | owned k hl hw hr hk ho =>
    have hne : i ≠ k := fun hc => by simp [← hc,hi,Pc.owner] at hk
    simpa [hi,Pc.outside] using ho i hne
  | publishing k v hl hw hr hk ho => simp [hw]
  | unwinding k hl hw hr hk ho =>
    have hne : i ≠ k := fun hc => by simp [← hc,hi] at hk
    simpa [hi,Pc.outside] using ho i hne
  | poisoned hl hw hr ho => simpa [hi,Pc.doomed,Pc.outside] using ho i
  | ready v hl hw hr ho => simp [hw]

/-- The thread in the closure owns the lock, and nobody else is past it. -/
lemma Phase.owner_running {s : State ι V} (h : Phase s) {i : ι} {f : Option V}
    (hi : s.pc i = .running f) :
    s.lock = Flag.lock ∧ s.writes = [] ∧ s.refs = [] ∧ ∀ j, j ≠ i → (s.pc j).outside = true := by
  cases h with
  | free hl hw hr ho => simpa [hi,Pc.outside] using ho i
  | owned k hl hw hr hk ho =>
    by_cases hne : i = k
    · subst hne
      exact ⟨hl,hw,hr,ho⟩
    · simpa [hi,Pc.outside] using ho i hne
  | publishing k v hl hw hr hk ho | unwinding k hl hw hr hk ho =>
    have hne : i ≠ k := fun hc => by simp [← hc,hi] at hk
    simpa [hi,Pc.outside] using ho i hne
  | poisoned hl hw hr ho => simpa [hi,Pc.doomed,Pc.outside] using ho i
  | ready v hl hw hr ho => simpa [hi,Pc.served,Pc.outside] using ho i

/-- The closure always finds the initialiser. -/
lemma LazyInv.initFn_eq {v : V} {s : LazyState ι V} (h : LazyInv v s) {i : ι}
    (hi : s.onceLock.pc i = .running none) : s.initFn = some v := by
  obtain ⟨-,hw,-,ho⟩ := h.phase.owner_running hi
  cases h.kept with
  | fresh hf _ _ => exact hf
  | taken hf ht =>
    rcases ht with hne | ⟨j,hj⟩
    · exact absurd hw hne
    · by_cases hji : j = i
      · simp [hji,hi,Pc.taking] at hj
      · have hout := ho j hji
        cases hpc : s.onceLock.pc j <;> simp [hpc,Pc.taking,Pc.outside] at hj hout

lemma lazyInv_new (v : V) : LazyInv v (LazyState.new v : LazyState ι V) :=
  ⟨initial_phase,fun _ => trivial,show Flags.has 0#64 Flag.poisoned = false by decide,fun w hw => absurd hw List.not_mem_nil,
    .fresh rfl rfl fun _ => rfl⟩

section Machine

variable [DecidableEq ι] {v : V} {s t : LazyState ι V}

lemma put_forces {q : State ι V} {i : ι} {r : Memory V × Pc V} (hr : r.2.Forces v)
    (h : ∀ j, (q.pc j).Forces v) (j : ι) : ((q.put i r).pc j).Forces v := by
  by_cases hj : j = i
  · subst hj
    rwa [put_pc_self]
  · rw [put_pc_of_ne q hj]
    exact h j

/-- A step that neither takes the initialiser nor writes leaves it where it is. -/
lemma Kept.put {q : State ι V} {i : ι} {r : Memory V × Pc V} {f : Option V}
    (h : Kept v ⟨q,f⟩) (hr : r.1.writes = q.writes ∧ r.2.taking = (q.pc i).taking ∨
      (q.pc i).taking = true ∧ r.1.writes ≠ []) : Kept v ⟨q.put i r,f⟩ := by
  cases h with
  | fresh hf hw ho =>
    rcases hr with ⟨hw',ht⟩ | ⟨ht,-⟩
    · refine .fresh hf (hw'.trans hw) fun j => ?_
      by_cases hj : j = i
      · subst hj
        change ((q.put j r).pc j).taking = false
        rw [put_pc_self,ht]
        exact ho j
      · change ((q.put i r).pc j).taking = false
        rw [put_pc_of_ne q hj]
        exact ho j
    · exact absurd ht (by simp [ho i])
  | taken hf hor =>
    refine .taken hf ?_
    rcases hr with ⟨hw',ht⟩ | ⟨-,hne⟩
    · rcases hor with hne | ⟨j,hj⟩
      · exact .inl fun hc => hne (hw'.symm.trans hc)
      · refine .inr ⟨j,?_⟩
        by_cases hji : j = i
        · subst hji
          change ((q.put j r).pc j).taking = true
          rw [put_pc_self,ht]
          exact hj
        · change ((q.put i r).pc j).taking = true
          rw [put_pc_of_ne q hji]
          exact hj
    · exact .inl hne

lemma lazyInv_enter (h : LazyInv v s) {i : ι} (hi : s.onceLock.pc i = .running none) :
    LazyInv v (s.enter i) := by
  obtain ⟨hl,hw,hr,ho⟩ := h.phase.owner_running hi
  rw [LazyState.enter,h.initFn_eq hi]
  refine ⟨.owned i hl hw hr (by simp [Pc.owner]) (put_others ho),
    put_forces (.inr rfl) h.forces,h.clean,h.written,.taken rfl (.inr ⟨i,?_⟩)⟩
  simp [Pc.taking]

lemma step_run_of_ne {i : ι} (hi : s.onceLock.pc i ≠ .running none) :
    s.step (.run i) = (threadStep s.onceLock.toMemory (s.onceLock.pc i)).map fun r =>
      { s with onceLock := s.onceLock.put i r } := by
  cases hpc : s.onceLock.pc i with
  | running f =>
    cases f with
    | none => exact absurd hpc hi
    | some w => simp [LazyState.step,hpc]
  | _ => simp [LazyState.step,hpc]

theorem lazyInv_step (s : LazyState ι V) (e : LazyLabel ι) (t : LazyState ι V) (hs : LazyInv v s)
    (h : s.step e = some t) : LazyInv v t := by
  cases e with
  | force i =>
    simp only [LazyState.step] at h
    split_ifs at h with hcall
    cases h
    have hout : (s.onceLock.pc i).outside = true := by
      cases hpc : s.onceLock.pc i <;> simp_all [Pc.callable,Pc.outside]
    have htake : (s.onceLock.pc i).taking = false := by
      cases hpc : s.onceLock.pc i <;> simp_all [Pc.callable,Pc.taking]
    exact ⟨phase_call hs.phase hout none,put_forces rfl hs.forces,hs.clean,hs.written,
      hs.kept.put (.inl ⟨rfl,htake.symm⟩)⟩
  | run i =>
    by_cases hi : s.onceLock.pc i = .running none
    · simp only [LazyState.step,hi,Option.some.injEq] at h
      subst h
      exact lazyInv_enter hs hi
    · rw [step_run_of_ne hi,Option.map_eq_some_iff] at h
      obtain ⟨⟨g,p⟩,hr,rfl⟩ := h
      obtain ⟨hp,hclean,hw,hkept⟩ := forces_step (hs.forces i) hi hs.clean hs.written
        (fun hd => hs.phase.delivers hd) hr
      have hdropping : ∀ j, s.onceLock.pc j ≠ .dropping := fun j hj => by
        have := hs.forces j
        rwa [hj] at this
      refine ⟨?_,put_forces hp hs.forces,hclean,hw,hs.kept.put hkept⟩
      cases hout : (s.onceLock.pc i).outside with
      | true => exact phase_outside hs.phase hout hr fun _ => hdropping
      | false => exact phase_inside hs.phase hout hr

/-- Whatever the order of the steps, the initialiser is taken once, by one thread at a time; every
`force` that returns gives its value, and none of them panics. -/
theorem force_agrees {es : List (LazyLabel ι)}
    (h : run LazyState.step (LazyState.new v : LazyState ι V) es = some s) :
    (∀ i o, s.onceLock.pc i = .returned o → o = .reference (some v)) ∧
      (∀ r ∈ s.onceLock.refs, r = some v) ∧ s.onceLock.writes.length ≤ 1 ∧
      (∀ i j, s.onceLock.pc i = .running none → (s.onceLock.pc j).isRunning = true → j = i) ∧
      ∀ i, s.onceLock.pc i = .running none → s.initFn = some v := by
  have hs : LazyInv v s := run_invariant lazyInv_step (lazyInv_new v) h
  obtain ⟨hone,hwrites,hrefs⟩ := hs.phase.safe
  refine ⟨fun i o ho => ?_,fun r hr => ?_,hwrites,fun i j hi hj => ?_,fun i hi => hs.initFn_eq hi⟩
  · have := hs.forces i
    rwa [ho] at this
  · obtain ⟨w,rfl,hw⟩ := hrefs r hr
    rw [hs.written w (by simp [hw])]
  · exact hone j i hj (by rw [hi]; rfl)

end Machine

/-- Two threads: the second comes while the first runs the initialiser. -/
theorem force_agrees_two : ∃ s : LazyState (Fin 2) ℕ,
    run LazyState.step (LazyState.new 5) ([.force 0,.force 1]++.replicate 5 (.run 0)++
      .replicate 4 (.run 1)++.replicate 4 (.run 0)) = some s ∧
      s.onceLock.pc 0 = .returned (.reference (some 5)) ∧ ∀ r ∈ s.onceLock.refs, r = some 5 := by
  obtain ⟨s,hs,hpc⟩ : ∃ s : LazyState (Fin 2) ℕ, run LazyState.step (LazyState.new 5)
      ([.force 0,.force 1]++.replicate 5 (.run 0)++.replicate 4 (.run 1)++.replicate 4 (.run 0)) =
        some s ∧ s.onceLock.pc 0 = .returned (.reference (some 5)) := ⟨_,rfl,rfl⟩
  exact ⟨s,hs,hpc,(force_agrees hs).2.1⟩

end WinterLily.Once
