import WinterLily.Once.Waiting
import WinterLily.Once.Sequential
import Mathlib.Tactic.IntervalCases

/-! The two models of `try_get_or_init` agree: a thread that runs alone takes the atomic steps to
the result the sequential function computes. -/
namespace WinterLily.Once
open WinterLily.Transition

variable {ι V : Type*}

/-- `n` atomic accesses of one thread. -/
def threadIter : ℕ → Memory V × Pc V → Option (Memory V × Pc V)
  | 0,r => some r
  | n+1,r => (threadStep r.1 r.2).bind (threadIter n)

lemma threadIter_add (m n : ℕ) (r : Memory V × Pc V) :
    threadIter (m+n) r = (threadIter m r).bind (threadIter n) := by
  induction m generalizing r with
  | zero => simp [threadIter]
  | succ m ih =>
    rw [Nat.add_right_comm]
    cases h : threadStep r.1 r.2 with
    | none => simp [threadIter,h]
    | some r' => simp [threadIter,h,ih]

lemma solo_eq_threadIter [DecidableEq ι] (s : State ι V) (i : ι) (n : ℕ) :
    solo s i n = (threadIter n (s.toMemory,s.pc i)).map (s.put i) := by
  induction n generalizing s with
  | zero => simp [solo,threadIter,State.put]
  | succ n ih =>
    have hput : ∀ r : Memory V × Pc V, (s.put i r).put i = s.put i := by
      intro r
      funext r'
      simp [State.put]
    cases h : threadStep s.toMemory (s.pc i) with
    | none => simp [solo,List.replicate_succ,step,threadIter,h]
    | some r =>
      have := ih (s.put i r)
      simp only [put_toMemory,put_pc_self] at this
      simp only [solo] at this
      simp [solo,List.replicate_succ,step,threadIter,h,this,hput]

/-- What the sequential model keeps of the memory. -/
def Memory.cell (g : Memory V) : Cell V := ⟨g.lock,g.writes.head?⟩

/-- The closure of the sequential model, from what it returns. -/
def closure (f : Option V) : Unit → Except Fault (Except Unit V × Unit) :=
  fun _ => .ok (match f with | some v => .ok v | none => .error (),())

def Outcome.ofResult : Except Unit V → Outcome V
  | .ok v => .reference (some v)
  | .error _ => .residual

/-- A thread that finds somebody else's lock bit never gets past the loop. -/
lemma threadIter_spin {g : Memory V} (f : Option V) (h : g.lock.has Flag.lock = true)
    (hg : g.lock ||| Flag.lock = g.lock) (n : ℕ) :
    threadIter n (g,.spin f) = some (g,.spin f) := by
  induction n with
  | zero => rfl
  | succ n ih => simp [threadIter,threadStep,fetchLock,h,hg,ih]

lemma and_lock (w : Flags) : w &&& Flag.lock = if w.getLsbD 0 then Flag.lock else 0#64 := by
  ext k hk
  by_cases hk0 : k = 0
  · subst k
    cases h : w.getLsbD 0 <;> simpa [Flag.lock] using h
  · cases h : w.getLsbD 0 <;> simp [Flag.lock,hk0]

lemma or_lock_of_has {w : Flags} (h : w.has Flag.lock = true) : w ||| Flag.lock = w := by
  have hand : w &&& Flag.lock = Flag.lock := by
    rw [Flags.has,and_lock] at h
    rw [and_lock]
    split_ifs at h with hb
    · rw [if_pos hb]
    · simp at h
  calc w ||| Flag.lock = w ||| w &&& Flag.lock := by rw [hand]
    _ = w := by
      ext k hk
      cases h : w[k] <;> simp [h]

/-- A fault of the sequential function and how the thread shows it. -/
def Hits (s : State ι V) (i : ι) [DecidableEq ι] : Fault → Prop
  | .panic => ∃ n t, solo s i n = some t ∧ t.pc i = .returned .panicked
  | .uninit => ∃ n t, solo s i n = some t ∧ t.pc i = .returned (.reference none)
  | .hang => ∀ n t, solo s i n = some t → ∀ o, t.pc i ≠ .returned o

/-- Running alone, a thread at the start of `try_get_or_init` ends as the sequential function
says, with the same cell. -/
theorem solo_refines_sequential [DecidableEq ι] {s : State ι V} {i : ι} {f : Option V}
    (h : s.pc i = .isInit f) :
    match s.cell.tryGetOrInit () (closure f) with
    | .ok (r,_,c) => ∃ n t, solo s i n = some t ∧ t.cell = c ∧ t.pc i = .returned (.ofResult r)
    | .error e => Hits s i e := by
  simp only [Cell.tryGetOrInit,Cell.isInit,Cell.isPoisoned,Memory.cell]
  by_cases hinit : s.lock.has Flag.init = true
  · have hrun : solo s i 2 = some (s.put i ({ s.toMemory with refs := s.writes.head?::s.refs },
        .returned (.reference s.writes.head?))) := by
      simp [solo_eq_threadIter,threadIter,h,threadStep,hinit]
    cases hw : s.writes.head? with
    | none =>
      simp only [hinit,if_true,Cell.read,Except.map]
      exact ⟨2,_,hrun,by simp [hw]⟩
    | some v =>
      simp only [hinit,if_true,Cell.read,Except.map]
      exact ⟨2,_,hrun,by simp [hw],by simp [hw,Outcome.ofResult]⟩
  · by_cases hpois : s.lock.has Flag.poisoned = true
    · simp only [hinit,hpois,if_true]
      refine ⟨2,s.put i (s.toMemory,.returned .panicked),?_,by simp⟩
      simp [solo_eq_threadIter,threadIter,h,threadStep,hinit,hpois]
    · have hpois' := (has_or_lock s.lock Flag.poisoned (by decide)).trans (eq_false_of_ne_true hpois)
      by_cases hlock : s.lock.has Flag.lock = true
      · simp only [hinit,hpois,hlock,if_true]
        intro n t ht o
        rw [solo_eq_threadIter,h] at ht
        obtain ⟨r,hr,rfl⟩ := Option.map_eq_some_iff.mp ht
        rw [put_pc_self]
        -- Two loads and one `fetch_or` lead into the loop, where the word no longer changes.
        have hgo : ∀ k, threadIter (3+k) (s.toMemory,.isInit f) = some (s.toMemory,.spin f) := by
          intro k
          have hor := or_lock_of_has hlock
          rw [threadIter_add]
          simp [threadIter,threadStep,fetchLock,hinit,hpois,hlock,hor,threadIter_spin]
        obtain hn | ⟨k,rfl⟩ : n < 3 ∨ ∃ k, n = 3+k :=
          (Nat.lt_or_ge n 3).imp_right Nat.exists_eq_add_of_le
        · interval_cases n
          · cases hr
            simp
          · simp [threadIter,threadStep,hinit] at hr
            simp [← hr]
          · simp [threadIter,threadStep,hinit,hpois] at hr
            simp [← hr]
        · rw [hgo k] at hr
          cases hr
          simp
      · cases f with
        | some v =>
          simp only [hinit,hpois,hlock,hpois',closure,Except.map]
          refine ⟨8,s.put i (⟨Flag.init,v::s.writes,some v::s.refs⟩,
            .returned (.reference (some v))),?_,rfl,by simp [Outcome.ofResult]⟩
          simp [solo_eq_threadIter,threadIter,h,threadStep,fetchLock,hinit,hpois,hlock,hpois']
        | none =>
          simp only [hinit,hpois,hlock,hpois',closure,Except.map]
          refine ⟨7,s.put i (⟨Flag.poisoned,s.writes,s.refs⟩,.returned .residual),?_,rfl,
            by simp [Outcome.ofResult]⟩
          simp [solo_eq_threadIter,threadIter,h,threadStep,fetchLock,hinit,hpois,hlock,hpois']

end WinterLily.Once
