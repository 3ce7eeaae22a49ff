import Mathlib.Tactic.Common

/-! The purpose of a reader-writer lock, in counters: how many shared and how many exclusive
holds are out. Nothing here says how the two counters are stored. -/
namespace WinterLily.ReaderWriter

@[ext] structure Holds where
  shared : ℕ
  exclusive : ℕ
  deriving DecidableEq, Repr

/-- What a lock may do to its holds. Acquisitions are the only guarded moves. -/
inductive Holds.Step : Holds → Holds → Prop
  | stay (h) : Step h h
  | acquireExclusive : Step ⟨0,0⟩ ⟨0,1⟩
  | acquireShared (r) : Step ⟨r,0⟩ ⟨r+1,0⟩
  | releaseExclusive (r w) : Step ⟨r,w+1⟩ ⟨r,w⟩
  | releaseShared (r w) : Step ⟨r+1,w⟩ ⟨r,w⟩
  | downgrade (r w) : Step ⟨r,w+1⟩ ⟨r+1,w⟩

/-- At most one writer, and no reader beside a writer. -/
def Holds.Exclusion (h : Holds) : Prop :=
  h.exclusive ≤ 1 ∧ (0 < h.exclusive → h.shared = 0)

theorem Holds.Step.exclusion {h k : Holds} (hs : Holds.Step h k) (he : h.Exclusion) :
    k.Exclusion := by
  unfold Holds.Exclusion at *
  cases hs with
  | stay => exact he
  | acquireExclusive => simp
  | acquireShared r => simp
  | releaseExclusive r w => simp only at *; omega
  | releaseShared r w => simp only at *; omega
  | downgrade r w => simp only at *; omega

end WinterLily.ReaderWriter
