import Mathlib.Order.Basic
import Mathlib.Data.List.Pairwise

/-! Half-open intervals laid out one after another, as a bump allocator hands them out. -/
namespace WinterLily.Interval

variable {α : Type*} [Preorder α]

/-- No point lies in both intervals. -/
def Apart (p q : α × α) : Prop := ∀ x, ¬ (p.1 ≤ x ∧ x < p.2 ∧ q.1 ≤ x ∧ x < q.2)

/-- The intervals follow each other from `lo` to `hi`. -/
def Packed (lo : α) : List (α × α) → α → Prop
  | [],hi => lo ≤ hi
  | p::ps,hi => lo ≤ p.1 ∧ p.1 ≤ p.2 ∧ Packed p.2 ps hi

theorem Packed.le {lo hi : α} {ps : List (α × α)} (h : Packed lo ps hi) : lo ≤ hi := by
  induction ps generalizing lo with
  | nil => exact h
  | cons p ps ih => exact h.1.trans (h.2.1.trans (ih h.2.2))

theorem Packed.concat {lo mid : α} {ps : List (α × α)} {p : α × α} (h : Packed lo ps mid)
    (hlo : mid ≤ p.1) (hp : p.1 ≤ p.2) : Packed lo (ps++[p]) p.2 := by
  induction ps generalizing lo with
  | nil => exact ⟨le_trans h hlo,hp,le_refl _⟩
  | cons q ps ih => exact ⟨h.1,h.2.1,ih h.2.2⟩

theorem Packed.within {lo hi : α} {ps : List (α × α)} (h : Packed lo ps hi) {p : α × α}
    (hp : p ∈ ps) : lo ≤ p.1 ∧ p.2 ≤ hi := by
  induction ps generalizing lo with
  | nil => cases hp
  | cons q ps ih =>
    rcases List.mem_cons.mp hp with rfl | hp
    · exact ⟨h.1,h.2.2.le⟩
    · obtain ⟨h₁,h₂⟩ := ih h.2.2 hp
      exact ⟨h.1.trans (h.2.1.trans h₁),h₂⟩

theorem Packed.apart {lo hi : α} {ps : List (α × α)} (h : Packed lo ps hi) :
    ps.Pairwise Apart := by
  induction ps generalizing lo with
  | nil => exact List.Pairwise.nil
  | cons p ps ih =>
    refine List.Pairwise.cons (fun q hq x hx => ?_) (ih h.2.2)
    have hle := (h.2.2.within hq).1
    exact absurd (hx.2.1.trans_le (hle.trans hx.2.2.1)) (lt_irrefl x)

end WinterLily.Interval
