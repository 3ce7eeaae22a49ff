import WinterLily.Once.Machine

/-! At most one initialisation. The failing path stores 0 and only then, from the dropped guard,
`POISONED`; a `fetch_or` between the two is what lets a second initialiser in. Without one the
lock passes through six phases, each of which fixes the word and who may be past the lock. -/
namespace WinterLily.Once
open WinterLily.Transition

variable {ι V E : Type*}

/-- Not past the `fetch_or`, or already returned. -/
def Pc.outside : Pc V → Bool
  | .idle | .isInit _ | .checkPoison _ | .fetchOr _ | .spin _ | .returned _ => true
  | _ => false

/-- Owns the lock and has not written the cell yet. -/
def Pc.owner : Pc V → Bool
  | .recheck _ m => m == 0#64
  | .running _ | .write _ | .failing => true
  | _ => false

/-- Outside a poisoned lock, or about to find it poisoned. -/
def Pc.doomed : Pc V → Bool
  | .recheck _ m => m == Flag.poisoned
  | p => p.outside

/-- Outside an initialised lock, or on the way out with the value. -/
def Pc.served : Pc V → Bool
  | .recheck _ m => m == Flag.init
  | .deliver => true
  | p => p.outside

/-- About to execute a `fetch_or` on the lock word. -/
def Pc.fetching : Pc V → Bool
  | .fetchOr _ | .spin _ => true
  | _ => false

def Pc.isRunning : Pc V → Bool
  | .running _ => true
  | _ => false

inductive Phase (s : State ι V) : Prop
  | free (hl : s.lock = 0#64) (hw : s.writes = []) (hr : s.refs = [])
      (ho : ∀ i, (s.pc i).outside = true)
  | owned (i : ι) (hl : s.lock = Flag.lock) (hw : s.writes = []) (hr : s.refs = [])
      (hi : (s.pc i).owner = true) (ho : ∀ j, j ≠ i → (s.pc j).outside = true)
  | publishing (i : ι) (v : V) (hl : s.lock = Flag.lock) (hw : s.writes = [v]) (hr : s.refs = [])
      (hi : s.pc i = .publish) (ho : ∀ j, j ≠ i → (s.pc j).outside = true)
  | unwinding (i : ι) (hl : s.lock = 0#64) (hw : s.writes = []) (hr : s.refs = [])
      (hi : s.pc i = .dropping) (ho : ∀ j, j ≠ i → (s.pc j).outside = true)
  | poisoned (hl : s.lock = Flag.poisoned ∨ s.lock = Flag.poisoned ||| Flag.lock)
      (hw : s.writes = []) (hr : s.refs = [])
      (ho : ∀ i, (s.pc i).doomed = true)
  | ready (v : V) (hl : s.lock = Flag.init ∨ s.lock = Flag.init ||| Flag.lock)
      (hw : s.writes = [v]) (hr : ∀ r ∈ s.refs, r = some v)
      (ho : ∀ i, (s.pc i).served = true)

/-- Two initialisers never overlap, the cell is written at most once, and every reference handed
out so far still shows that one value. -/
def State.Safe (s : State ι V) : Prop :=
  (∀ i j, (s.pc i).isRunning = true → (s.pc j).isRunning = true → i = j) ∧
  s.writes.length ≤ 1 ∧ ∀ r ∈ s.refs, ∃ v, r = some v ∧ s.writes = [v]

/-- No `fetch_or` between the two stores of a failing initialisation. -/
def Unraced (s : State ι V) : Label ι V E → Prop
  | .call _ _ => True
  | .run i => (s.pc i).fetching = true → ∀ j, s.pc j ≠ .dropping

instance [Fintype ι] [DecidableEq V] (s : State ι V) (e : Label ι V E) :
    Decidable (Unraced s e) :=
  match e with
  | .call _ _ => isTrue trivial
  | .run i => inferInstanceAs (Decidable ((s.pc i).fetching = true → ∀ j, s.pc j ≠ .dropping))

lemma not_running_of_outside {p : Pc V} (h : p.outside = true) : p.isRunning = false := by
  cases p <;> simp_all [Pc.outside,Pc.isRunning]

lemma doomed_of_outside {p : Pc V} (h : p.outside = true) : p.doomed = true := by
  cases p <;> simp_all [Pc.outside,Pc.doomed]

lemma served_of_outside {p : Pc V} (h : p.outside = true) : p.served = true := by
  cases p <;> simp_all [Pc.outside,Pc.served]

lemma not_running_of_doomed {p : Pc V} (h : p.doomed = true) : p.isRunning = false := by
  cases p <;> simp_all [Pc.outside,Pc.doomed,Pc.isRunning]

lemma not_running_of_served {p : Pc V} (h : p.served = true) : p.isRunning = false := by
  cases p <;> simp_all [Pc.outside,Pc.served,Pc.isRunning]

theorem Phase.safe {s : State ι V} (h : Phase s) : s.Safe := by
  -- In every phase at most one thread is not outside, or the threads inside are not running.
  have one : ∀ k, (∀ j, j ≠ k → (s.pc j).outside = true) →
      ∀ i j, (s.pc i).isRunning = true → (s.pc j).isRunning = true → i = j := by
    intro k ho i j hi hj
    have only : ∀ l, (s.pc l).isRunning = true → l = k := by
      intro l hl
      by_contra hne
      rw [not_running_of_outside (ho l hne)] at hl
      contradiction
    rw [only i hi,only j hj]
  cases h with
  | free hl hw hr ho =>
    refine ⟨?_,by simp [hw],by simp [hr]⟩
    intro i j hi
    rw [not_running_of_outside (ho i)] at hi
    contradiction
  | owned k hl hw hr hi ho | publishing k v hl hw hr hi ho | unwinding k hl hw hr hi ho =>
    exact ⟨one k ho,by simp [hw],by simp [hr]⟩
  | poisoned hl hw hr ho =>
    refine ⟨?_,by simp [hw],by simp [hr]⟩
    intro i j hi
    rw [not_running_of_doomed (ho i)] at hi
    contradiction
  | ready v hl hw hr ho =>
    refine ⟨?_,by simp [hw],fun r hm => ⟨v,hr r hm,hw⟩⟩
    intro i j hi
    rw [not_running_of_served (ho i)] at hi
    contradiction

theorem initial_phase : Phase (State.initial : State ι V) :=
  .free rfl rfl rfl (fun _ => rfl)

/-- What a thread outside the lock can do: look, deliver an initialised value, or fetch. -/
lemma outside_step {g g' : Memory V} {p p' : Pc V} (ho : p.outside = true)
    (h : threadStep g p = some (g',p')) :
    (g' = g ∧ p'.outside = true) ∨
    (g' = g ∧ p' = .deliver ∧ g.lock.has Flag.init = true) ∨
    (p.fetching = true ∧ ∃ f, (g',p') = fetchLock g f) := by
  cases p with
  | isInit f =>
    simp only [threadStep,Option.some.injEq,Prod.mk.injEq] at h
    obtain ⟨rfl,rfl⟩ := h
    split_ifs with hi
    · exact .inr (.inl ⟨rfl,rfl,hi⟩)
    · exact .inl ⟨rfl,rfl⟩
  | checkPoison f =>
    simp only [threadStep,Option.some.injEq,Prod.mk.injEq] at h
    obtain ⟨rfl,rfl⟩ := h
    split_ifs <;> exact .inl ⟨rfl,rfl⟩
  | fetchOr f | spin f => exact .inr (.inr ⟨rfl,f,(Option.some.inj h).symm⟩)
  | idle | returned o => simp [threadStep] at h
  | _ => simp [Pc.outside] at ho

section Threads

variable [DecidableEq ι]

/-- What holds of the thread that moves and of every other one holds after the move. -/
lemma put_pc_of (q : Pc V → Bool) {s : State ι V} {i j : ι} {r : Memory V × Pc V}
    (hi : j = i → q r.2 = true) (ho : j ≠ i → q (s.pc j) = true) :
    q ((s.put i r).pc j) = true := by
  by_cases h : j = i
  · subst j; simpa using hi rfl
  · simpa [put_pc_of_ne s h] using ho h

lemma put_forall (q : Pc V → Bool) {s : State ι V} {i : ι} {r : Memory V × Pc V}
    (hi : q r.2 = true) (ho : ∀ j, q (s.pc j) = true) : ∀ j, q ((s.put i r).pc j) = true :=
  fun j => put_pc_of q (fun _ => hi) fun _ => ho j

/-- Replacing a thread other than `k` by one that is again outside. -/
lemma put_outside {s : State ι V} {i k : ι} {r : Memory V × Pc V} (hi : r.2.outside = true)
    (ho : ∀ j, j ≠ k → (s.pc j).outside = true) :
    ∀ j, j ≠ k → ((s.put i r).pc j).outside = true :=
  fun j hj => put_pc_of Pc.outside (fun _ => hi) fun _ => ho j hj

lemma put_others {s : State ι V} {i : ι} {r : Memory V × Pc V}
    (ho : ∀ j, j ≠ i → (s.pc j).outside = true) :
    ∀ j, j ≠ i → ((s.put i r).pc j).outside = true :=
  fun j hj => put_pc_of Pc.outside (fun h => absurd h hj) fun _ => ho j hj

/-- A call only moves its own thread, and only outside the lock. -/
lemma phase_call {s : State ι V} (hs : Phase s) {i : ι} (hout : (s.pc i).outside = true)
    (f : Option V) : Phase (s.put i (s.toMemory,.isInit f)) := by
  have keep : ∀ k, (s.pc k).outside = false → (s.put i (s.toMemory,.isInit f)).pc k = s.pc k := by
    intro k hk
    apply put_pc_of_ne
    rintro rfl
    simp [hk] at hout
  cases hs with
  | free hl hw hr ho => exact .free hl hw hr (put_forall Pc.outside rfl ho)
  | owned k hl hw hr hi ho =>
    have hk : (s.pc k).outside = false := by
      cases hpc : s.pc k <;> simp_all [Pc.owner,Pc.outside]
    exact .owned k hl hw hr (by rwa [keep k hk]) (put_outside rfl ho)
  | publishing k v hl hw hr hi ho =>
    exact .publishing k v hl hw hr (by rwa [keep k (by simp [hi,Pc.outside])]) (put_outside rfl ho)
  | unwinding k hl hw hr hi ho =>
    exact .unwinding k hl hw hr (by rwa [keep k (by simp [hi,Pc.outside])]) (put_outside rfl ho)
  | poisoned hl hw hr ho => exact .poisoned hl hw hr (put_forall Pc.doomed rfl ho)
  | ready v hl hw hr ho => exact .ready v hl hw hr (put_forall Pc.served rfl ho)

/-- A fetch of a lock whose bit may be set already. -/
lemma or_lock {l f : Flags} (hl : l = f ∨ l = f ||| Flag.lock) :
    l ||| Flag.lock = f ||| Flag.lock := by
  rcases hl with rfl | rfl
  · rfl
  · rw [BitVec.or_assoc,BitVec.or_self]

/-- A thread that is not the owner finds the lock bit set and goes on waiting. -/
lemma fetchLock_locked {g : Memory V} (hl : g.lock = Flag.lock) (f : Option V) :
    fetchLock g f = (g,.spin f) := by
  rcases g with ⟨l,w,r⟩
  simp only at hl
  subst hl
  simp [fetchLock,Flags.has,Flag.lock]

/-- Threads outside the lock keep every phase, except by a fetch during the unwinding. -/
theorem phase_outside {s : State ι V} (hs : Phase s) {i : ι} (hout : (s.pc i).outside = true)
    {r : Memory V × Pc V} (h : threadStep s.toMemory (s.pc i) = some r)
    (hc : (s.pc i).fetching = true → ∀ j, s.pc j ≠ .dropping) : Phase (s.put i r) := by
  rcases r with ⟨g,p⟩
  have hcase := outside_step hout h
  cases hs with
  | free hl hw hr ho =>
    rcases hcase with ⟨rfl,hp⟩ | ⟨rfl,rfl,hi⟩ | ⟨-,f,hf⟩
    · exact .free hl hw hr (put_forall Pc.outside hp ho)
    · rw [hl] at hi
      exact absurd hi (by decide)
    · rw [hf]
      refine .owned i ?_ hw hr ?_ (fun j hj => ?_)
      · change s.lock ||| Flag.lock = Flag.lock
        rw [hl]
        decide
      · simp [fetchLock,hl,Flags.has,Pc.owner]
      · rw [put_pc_of_ne s hj]
        exact ho j
  | owned k hl hw hr hi ho =>
    have hik : i ≠ k := by
      rintro rfl
      cases hpc : s.pc i <;> simp [hpc,Pc.outside,Pc.owner] at hout hi
    rcases hcase with ⟨rfl,hp⟩ | ⟨rfl,rfl,hinit⟩ | ⟨-,f,hf⟩
    · exact .owned k hl hw hr (by rwa [put_pc_of_ne s hik.symm]) (put_outside hp ho)
    · rw [hl] at hinit
      exact absurd hinit (by decide)
    · rw [hf,fetchLock_locked hl]
      exact .owned k hl hw hr (by rwa [put_pc_of_ne s hik.symm]) (put_outside rfl ho)
  | publishing k v hl hw hr hi ho =>
    have hik : i ≠ k := by
      rintro rfl
      simp [hi,Pc.outside] at hout
    rcases hcase with ⟨rfl,hp⟩ | ⟨rfl,rfl,hinit⟩ | ⟨-,f,hf⟩
    · exact .publishing k v hl hw hr (by rwa [put_pc_of_ne s hik.symm]) (put_outside hp ho)
    · rw [hl] at hinit
      exact absurd hinit (by decide)
    · rw [hf,fetchLock_locked hl]
      exact .publishing k v hl hw hr (by rwa [put_pc_of_ne s hik.symm]) (put_outside rfl ho)
  | unwinding k hl hw hr hi ho =>
    have hik : i ≠ k := by
      rintro rfl
      simp [hi,Pc.outside] at hout
    rcases hcase with ⟨rfl,hp⟩ | ⟨rfl,rfl,hinit⟩ | ⟨hfetch,-⟩
    · exact .unwinding k hl hw hr (by rwa [put_pc_of_ne s hik.symm]) (put_outside hp ho)
    · rw [hl] at hinit
      exact absurd hinit (by decide)
    · exact absurd hi (hc hfetch k)
  | poisoned hl hw hr ho =>
    rcases hcase with ⟨rfl,hp⟩ | ⟨rfl,rfl,hinit⟩ | ⟨-,f,hf⟩
    · exact .poisoned hl hw hr (put_forall Pc.doomed (doomed_of_outside hp) ho)
    · rcases hl with hl | hl <;> rw [hl] at hinit <;> exact absurd hinit (by decide)
    · rw [hf]
      refine .poisoned (.inr ?_) hw hr (put_forall Pc.doomed ?_ ho)
      · exact or_lock hl
      · rcases hl with hl | hl <;>
          simp [fetchLock,hl,Flags.has,Flag.poisoned,Flag.lock,Pc.doomed,Pc.outside]
  | ready v hl hw hr ho =>
    rcases hcase with ⟨rfl,hp⟩ | ⟨rfl,rfl,-⟩ | ⟨-,f,hf⟩
    · exact .ready v hl hw hr (put_forall Pc.served (served_of_outside hp) ho)
    · exact .ready v hl hw hr (put_forall Pc.served rfl ho)
    · rw [hf]
      refine .ready v (.inr ?_) hw hr (put_forall Pc.served ?_ ho)
      · exact or_lock hl
      · rcases hl with hl | hl <;>
          simp [fetchLock,hl,Flags.has,Flag.init,Flag.lock,Pc.served,Pc.outside]

/-- The thread inside the lock takes it from one phase to the next. -/
theorem phase_inside {s : State ι V} (hs : Phase s) {i : ι} (hout : (s.pc i).outside = false)
    {r : Memory V × Pc V} (h : threadStep s.toMemory (s.pc i) = some r) : Phase (s.put i r) := by
  -- The thread that moves is the only one inside, in the phases that have one.
  have only : ∀ k, (∀ j, j ≠ k → (s.pc j).outside = true) → i = k := by
    intro k ho
    by_contra hne
    simp [ho i hne] at hout
  cases hs with
  | free hl hw hr ho => simp [ho i] at hout
  | owned k hl hw hr hi ho =>
    obtain rfl := only k ho
    cases hpc : s.pc i with
    | recheck f m =>
      obtain rfl : m = 0#64 := by simpa [hpc,Pc.owner] using hi
      simp only [hpc,threadStep,hl,Option.some.injEq] at h
      subst h
      exact .owned i hl hw hr (by simp [Flags.has,Flag.lock,Flag.poisoned,Pc.owner])
        (put_others ho)
    | running f =>
      cases f with
      | none | some v =>
        simp only [hpc,threadStep,Option.some.injEq] at h
        subst h
        exact .owned i hl hw hr (by simp [Pc.owner]) (put_others ho)
    | write v =>
      simp only [hpc,threadStep,Option.some.injEq] at h
      subst h
      exact .publishing i v hl (by simp [hw]) hr (by simp) (put_others ho)
    | failing =>
      simp only [hpc,threadStep,Option.some.injEq] at h
      subst h
      exact .unwinding i rfl hw hr (by simp) (put_others ho)
    | _ => simp [hpc,Pc.owner] at hi
  | publishing k v hl hw hr hi ho =>
    obtain rfl := only k ho
    simp only [hi,threadStep,Option.some.injEq] at h
    subst h
    exact .ready v (.inl rfl) hw (by simp [hr]) fun j =>
      put_pc_of Pc.served (fun _ => rfl) fun hj => served_of_outside (ho j hj)
  | unwinding k hl hw hr hi ho =>
    obtain rfl := only k ho
    simp only [hi,threadStep,Option.some.injEq] at h
    subst h
    exact .poisoned (.inl rfl) hw hr fun j =>
      put_pc_of Pc.doomed (fun _ => rfl) fun hj => doomed_of_outside (ho j hj)
  | poisoned hl hw hr ho =>
    have hd := ho i
    cases hpc : s.pc i with
    | recheck f m =>
      have hp : s.lock.has Flag.poisoned = true := by
        rcases hl with hl | hl <;> rw [hl] <;> decide
      simp only [hpc,threadStep,hp,if_true,Option.some.injEq] at h
      subst h
      exact .poisoned hl hw hr (put_forall Pc.doomed rfl ho)
    | _ => simp [hpc,Pc.doomed,Pc.outside] at hd hout
  | ready v hl hw hr ho =>
    have hd := ho i
    cases hpc : s.pc i with
    | recheck f m =>
      obtain rfl : m = Flag.init := by simpa [hpc,Pc.served] using hd
      have hp : s.lock.has Flag.poisoned = false := by
        rcases hl with hl | hl <;> rw [hl] <;> decide
      have hi : Flags.has Flag.init Flag.init = true := by decide
      simp only [hpc,threadStep,hp,hi,if_true,Bool.false_eq_true,if_false,Option.some.injEq] at h
      subst h
      exact .ready v hl hw hr (put_forall Pc.served rfl ho)
    | deliver =>
      simp only [hpc,threadStep,hw,List.head?_cons,Option.some.injEq] at h
      subst h
      refine .ready v hl rfl ?_ (put_forall Pc.served rfl ho)
      intro r hm
      rcases List.mem_cons.mp hm with rfl | hm
      · rfl
      · exact hr r hm
    | _ => simp [hpc,Pc.served,Pc.outside] at hd hout

theorem phase_step (s : State ι V) (e : Label ι V E) (t : State ι V) (hs : Phase s)
    (hc : Unraced s e) (h : step s e = some t) : Phase t := by
  cases e with
  | call i c =>
    simp only [step] at h
    split_ifs at h with hcall
    cases h
    have hout : (s.pc i).outside = true := by
      cases hpc : s.pc i <;> simp_all [Pc.callable,Pc.outside]
    exact phase_call hs hout c.initialiser
  | run i =>
    obtain ⟨r,hr,rfl⟩ := Option.map_eq_some_iff.mp h
    cases hout : (s.pc i).outside with
    | true => exact phase_outside hs hout hr hc
    | false => exact phase_inside hs hout hr

/-- Along every run in which no `fetch_or` falls between the two stores of a failing
initialisation, initialisers exclude each other and the cell is written at most once. -/
theorem initialises_at_most_once (es : List (Label ι V E))
    (h : Guarded step Unraced (State.initial : State ι V) es) :
    Always step State.Safe State.initial es :=
  always_of_guarded phase_step (fun _ hs => hs.safe) initial_phase h

end Threads

/-! ### The window between the two stores -/

/-- Thread `b` asks for the value while thread `a` is setting it, and waits at the lock until
`a` has published. -/
def setBesideGet {ι : Type*} (a b : ι) : List (Label ι ℕ Unit) :=
  .call a (.set 5)::List.replicate 4 (.run a)++.call b .get::List.replicate 4 (.run b)++
    List.replicate 4 (.run a)++List.replicate 3 (.run b)

theorem initialises_at_most_once_setBesideGet :
    Guarded step Unraced (State.initial : State (Fin 2) ℕ) (setBesideGet 0 1) ∧
      (∃ s, run step (State.initial : State (Fin 2) ℕ) (setBesideGet 0 1) = some s ∧
        s.writes = [5] ∧ s.refs = [some 5,some 5]) ∧
      Always step State.Safe (State.initial : State (Fin 2) ℕ) (setBesideGet 0 1) := by
  have h : Guarded step Unraced (State.initial : State (Fin 2) ℕ) (setBesideGet 0 1) := by decide
  exact ⟨h,⟨_,rfl,by decide,by decide⟩,initialises_at_most_once (setBesideGet 0 1) h⟩

/-- Thread `a` is a `get` on the empty cell, threads `b` and `c` set it. Thread `b` fetches the lock
between the two stores of thread `a`, thread `c` fetches `POISONED` after them. -/
def doubleInit {ι : Type*} (a b c : ι) : List (Label ι ℕ Unit) :=
  [.call a .get,.run a,.run a,.run a,.run a,.run a,.run a,
   .call c (.set 22),.run c,.run c,.call b (.set 11),.run b,.run b,.run b,.run b,
   .run a,.run c,.run b,.run b,.run b,.run b,.run c,.run c,.run c,.run c,.run c]

theorem cell_written_twice :
    ∃ s, run step (State.initial : State (Fin 3) ℕ) (doubleInit 0 1 2) = some s ∧
      s.writes = [22,11] ∧ s.refs = [some 22,some 11] ∧ ¬ s.Safe := by
  refine ⟨_,rfl,?_,?_,?_⟩
  · decide
  · decide
  · rintro ⟨-,h,-⟩
    exact absurd h (by decide)

end WinterLily.Once
