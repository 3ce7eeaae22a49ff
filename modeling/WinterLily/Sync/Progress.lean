import WinterLily.Sync.Exclusion

/-! One thread alone with the lock. `lock_exclusive` reads the word again on every way round its
loop; `lock_shared` does so only after a failed compare-exchange, and it makes none while the copy
it holds has the exclusive bit set. -/
namespace WinterLily.Sync
open WinterLily.Transition

/-- The local `load` of a thread inside `lock_shared`. -/
def Pc.load : Pc → Option Word
  | .lockShared _ load | .lockSharedParked _ load => some load
  | _ => none

/-- Inside `lock_exclusive`. -/
def Pc.lockingExclusive : Pc → Bool
  | .lockExclusive _ | .lockExclusiveBackoff _ _ | .lockExclusiveParked _ => true
  | _ => false

section Solo

variable {ι : Type*} [DecidableEq ι]

/-- The next instruction of thread `i`, whose compare-exchanges do not fail spuriously. -/
def solo (i : ι) (s : State ι) (_ : Unit) : Option (State ι) := step s (.run i false)

/-- The thread as it returns from `lock_shared`. -/
def Thread.gotShared (t : Thread) : Thread := { t with pc := .idle none, shared := t.shared+1 }

/-- The thread as it returns from `lock_exclusive`. -/
def Thread.gotExclusive (t : Thread) : Thread :=
  { t with pc := .idle none, exclusive := t.exclusive+1 }

/-- Finitely many steps of thread `i` alone bring it to `t`. -/
def State.ReachesAlone (s : State ι) (i : ι) (t : Thread) : Prop :=
  ∃ es u, run (solo i) s es = some u ∧ u.thread i = t

variable {s u : State ι} {i : ι} {t : Thread}

lemma solo_some {w : Word} {v : Thread} (h : threadStep s.word (s.thread i) false = some (w,v)) :
    solo i s () = some { s.set i v with word := w } := by
  simp only [solo,step,h,Option.map_some]

/-- One step in front of a way to `t`. -/
lemma State.ReachesAlone.cons {w : Word} {v : Thread}
    (h : threadStep s.word (s.thread i) false = some (w,v))
    (ht : ({ s.set i v with word := w } : State ι).ReachesAlone i t) : s.ReachesAlone i t := by
  obtain ⟨es,u,hu,rfl⟩ := ht
  exact ⟨()::es,u,run_cons_of (solo_some h) hu,rfl⟩

/-- The step that gets there. -/
lemma State.ReachesAlone.last {w : Word}
    (h : threadStep s.word (s.thread i) false = some (w,t)) : s.ReachesAlone i t :=
  .cons h ⟨[],_,rfl,by simp [State.set]⟩

/-- What each step of the thread keeps rules out the rest. -/
lemma not_reachesAlone {I : Thread → Prop} (hs : I (s.thread i)) (ht : ¬ I t)
    (hstep : ∀ w v w' v', I v → threadStep w v false = some (w',v') → I v') :
    ¬ s.ReachesAlone i t := by
  rintro ⟨es,u,hu,rfl⟩
  refine ht (run_invariant (I := fun s => I (s.thread i)) ?_ hs hu)
  intro s e u hs hu
  obtain ⟨⟨w,v⟩,hv,rfl⟩ := Option.map_eq_some_iff.mp hu
  have hi := hstep _ _ _ _ hs hv
  change I (Function.update s.thread i v i)
  rwa [Function.update_self]

/-- A sleeping thread takes no step of its own. -/
lemma not_reachesAlone_of_parked (hs : (s.thread i).pc.parked = true) (ht : t.pc.parked = false) :
    ¬ s.ReachesAlone i t := by
  refine not_reachesAlone (I := fun v => v.pc.parked = true) hs (by simp [ht]) ?_
  intro w v w' v' hv hstep
  obtain ⟨pc,sh,ex⟩ := v
  cases pc with
  | lockExclusiveParked k => cases hstep
  | lockSharedParked k l => cases hstep
  | _ => cases hv

/-- With the exclusive bit in its copy of the word, the thread never looks at the word again. -/
lemma not_reachesAlone_of_stale {load : Word} (hs : (s.thread i).pc.load = some load)
    (hbit : load &&& exclusiveBit ≠ 0) (ht : t.pc.load = none) : ¬ s.ReachesAlone i t := by
  refine not_reachesAlone (I := fun v => v.pc.load = some load) hs (by simp [ht]) ?_
  intro w v w' v' hv hstep
  obtain ⟨pc,sh,ex⟩ := v
  cases pc with
  | lockShared k l =>
    cases hv
    simp only [threadStep,if_neg hbit] at hstep
    split_ifs at hstep <;> cases hstep <;> rfl
  | lockSharedParked k l => cases hstep
  | _ => cases hv

lemma lockShared_reaches {k : ℕ} {load : Word} (hpc : (s.thread i).pc = .lockShared k load)
    (hword : s.word &&& exclusiveBit = 0) (hload : load &&& exclusiveBit = 0) :
    s.ReachesAlone i (s.thread i).gotShared := by
  have hmatch : ∀ s : State ι, (s.thread i).pc = .lockShared k s.word →
      s.word &&& exclusiveBit = 0 → s.ReachesAlone i (s.thread i).gotShared := by
    intro s hpc hword
    refine .last (w := s.word+1) ?_
    simp only [threadStep,hpc,hword,if_true,and_self]
    rfl
  by_cases hw : s.word = load
  · exact hmatch s (by rw [hpc,hw]) hword
  · -- the failed exchange refreshes the copy
    have hrefresh : threadStep s.word (s.thread i) false =
        some (s.word,{ s.thread i with pc := .lockShared k s.word }) := by
      simp only [threadStep,hpc,hload,if_true,hw,false_and,if_false]
    refine .cons hrefresh ?_
    have hnext := hmatch (s.set i { s.thread i with pc := .lockShared k s.word })
      (by simp [State.set]) hword
    simpa [State.set,Thread.gotShared] using hnext

lemma lockExclusive_reaches {k : ℕ} (hpc : (s.thread i).pc = .lockExclusive k) (hword : s.word = 0) :
    s.ReachesAlone i (s.thread i).gotExclusive := by
  refine .last (w := exclusiveBit) ?_
  simp only [threadStep,hpc,hword]
  rfl

lemma lockExclusiveBackoff_reaches {k : ℕ} {e : Contended}
    (hpc : (s.thread i).pc = .lockExclusiveBackoff k e) (hword : s.word = 0) :
    s.ReachesAlone i (s.thread i).gotExclusive := by
  have hne : ¬ (backoff k = .futexWait ∧ s.word = e.val) := by
    rw [hword]
    exact fun h => e.property h.2.symm
  have hretry : threadStep s.word (s.thread i) false =
      some (s.word,{ s.thread i with pc := .lockExclusive (saturatingSucc k) }) := by
    simp only [threadStep,hpc,if_neg hne]
  refine .cons hretry ?_
  have hnext := lockExclusive_reaches (i := i)
    (s := s.set i { s.thread i with pc := .lockExclusive (saturatingSucc k) })
    (by simp [State.set]; rfl) hword
  simpa [State.set,Thread.gotExclusive] using hnext

/-- Where the lock is available, a thread in `lock_shared` gets it alone exactly when its copy of
the word has the exclusive bit clear, and one in `lock_exclusive` exactly when it is not asleep. -/
theorem reachesAlone_iff (s : State ι) (i : ι) :
    (s.word &&& exclusiveBit = 0 → ∀ load, (s.thread i).pc.load = some load →
      (s.ReachesAlone i (s.thread i).gotShared ↔
        (s.thread i).pc.parked = false ∧ load &&& exclusiveBit = 0)) ∧
    (s.word = 0 → (s.thread i).pc.lockingExclusive = true →
      (s.ReachesAlone i (s.thread i).gotExclusive ↔ (s.thread i).pc.parked = false)) := by
  refine ⟨fun hword load hload => ⟨fun h => ⟨?_,?_⟩,fun ⟨hawake,hbit⟩ => ?_⟩,
    fun hword hin => ⟨fun h => ?_,fun hawake => ?_⟩⟩
  · by_contra hpark
    exact not_reachesAlone_of_parked (by simpa using hpark) rfl h
  · by_contra hbit
    exact not_reachesAlone_of_stale hload hbit rfl h
  · cases hpc : (s.thread i).pc with
    | lockShared k l =>
      rw [hpc] at hload
      cases hload
      exact lockShared_reaches hpc hword hbit
    | lockSharedParked k l =>
      rw [hpc] at hawake
      cases hawake
    | _ =>
      rw [hpc] at hload
      cases hload
  · by_contra hpark
    exact not_reachesAlone_of_parked (by simpa using hpark) rfl h
  · cases hpc : (s.thread i).pc with
    | lockExclusive k => exact lockExclusive_reaches hpc hword
    | lockExclusiveBackoff k e => exact lockExclusiveBackoff_reaches hpc hword
    | lockExclusiveParked k =>
      rw [hpc] at hawake
      cases hawake
    | _ =>
      rw [hpc] at hin
      cases hin

end Solo

/-- A reader that comes to a shared lock fails once and gets in; a writer that failed against the
reader gets in after it has left. -/
theorem reachesAlone_iff_newcomers :
    (∃ s, run step (State.initial : State (Fin 2))
        [.call 0 .lockShared,.run 0 false,.call 1 .lockShared] = some s ∧ s.word = 1 ∧
      s.ReachesAlone 1 (s.thread 1).gotShared) ∧
    ∃ s, run step (State.initial : State (Fin 2))
        [.call 0 .lockShared,.run 0 false,.call 1 .lockExclusive,.run 1 false,
          .call 0 .unlockShared,.run 0 false] = some s ∧ s.word = 0 ∧
      s.ReachesAlone 1 (s.thread 1).gotExclusive := by
  refine ⟨⟨_,rfl,rfl,?_⟩,⟨_,rfl,rfl,?_⟩⟩
  · exact ((reachesAlone_iff _ 1).1 (by decide) 0 rfl).mpr ⟨rfl,by decide⟩
  · exact ((reachesAlone_iff _ 1).2 rfl rfl).mpr rfl

/-- A reader that once met a writer keeps the writer's word, and goes round for ever after the
writer has left. -/
theorem stale_reader_stuck :
    ∃ s, run step (State.initial : State (Fin 2))
        [.call 0 .lockExclusive,.run 0 false,.call 1 .lockShared,.run 1 false,
          .call 0 .unlockExclusive,.run 0 false] = some s ∧
      s.word = 0 ∧ (s.thread 1).pc = .lockShared 0 exclusiveBit ∧
      ¬ s.ReachesAlone 1 (s.thread 1).gotShared := by
  refine ⟨_,rfl,rfl,rfl,?_⟩
  exact not_reachesAlone_of_stale rfl (by decide) rfl

end WinterLily.Sync
