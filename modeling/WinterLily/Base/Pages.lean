import Mathlib.Data.List.Count
import Mathlib.Data.List.Perm.Basic

/-! Pages of an address space. A mapping call carries the page the kernel chose; a choice it may not
make counts as a failure, so a call ranges over exactly the answers that are allowed. `Tiles` says
that the mapped pages are the disjoint union of the ranges of a list of owners. -/
namespace WinterLily.Pages

/-- `len` pages from `start` on. -/
structure Range where
  start : ℕ
  len : ℕ
  deriving DecidableEq, Repr

def Range.has (r : Range) (q : ℕ) : Bool := r.start ≤ q && q < r.start+r.len

@[simp] theorem Range.has_iff {r : Range} {q : ℕ} :
    r.has q = true ↔ r.start ≤ q ∧ q < r.start+r.len := by
  simp [Range.has]

/-- The pages of a range are those an offset below its length from its start. -/
theorem Range.forall_has {r : Range} {P : ℕ → Prop} :
    (∀ q, r.has q = true → P q) ↔ ∀ i < r.len, P (r.start+i) := by
  simp only [Range.has_iff]
  constructor
  · exact fun h i hi => h _ ⟨by omega,by omega⟩
  · intro h q hq
    have hmem := h (q-r.start) (by omega)
    rwa [Nat.add_sub_cancel' hq.1] at hmem

/-- What each page holds; a page that is not mapped holds nothing. -/
abbrev Space (α : Type*) := ℕ → Option α

section Calls

variable {α : Type*}

def Space.place (s : Space α) (r : Range) (f : ℕ → Option α) : Space α :=
  fun q => if r.has q then f (q-r.start) else s q

def Space.drop (s : Space α) (r : Range) : Space α := fun q => if r.has q then none else s q

def Space.free (s : Space α) (r : Range) : Bool :=
  (List.range r.len).all fun i => (s (r.start+i)).isNone

def Space.full (s : Space α) (r : Range) : Bool :=
  (List.range r.len).all fun i => (s (r.start+i)).isSome

/-- The mapped pages of `r` change by `g`. -/
def Space.adjust (s : Space α) (r : Range) (g : α → α) : Space α :=
  fun q => if r.has q then (s q).map g else s q

/-- New pages at an address of the kernel's choice, which is never the null page. -/
def Space.mmap (s : Space α) (reply : Option ℕ) (n : ℕ) (f : ℕ → α) : Option (ℕ × Space α) :=
  match reply with
  | none => none
  | some p => if 0 < p ∧ s.free ⟨p,n⟩ = true then some (p,s.place ⟨p,n⟩ fun i => some (f i))
      else none

/-- The pages of `r` become `n` pages, possibly elsewhere; pages past the old end are new. -/
def Space.mremap (s : Space α) (reply : Option ℕ) (r : Range) (n : ℕ) (f : ℕ → α) :
    Option (ℕ × Space α) :=
  match reply with
  | none => none
  | some p => if 0 < p ∧ (s.drop r).free ⟨p,n⟩ = true then
        some (p,(s.drop r).place ⟨p,n⟩ fun i => if i < r.len then s (r.start+i) else some (f i))
      else none

variable {s t : Space α} {r : Range} {n p : ℕ} {f : ℕ → α}

theorem free_iff : s.free r = true ↔ ∀ q, r.has q = true → s q = none := by
  rw [Range.forall_has]
  simp only [Space.free,List.all_eq_true,List.mem_range,Option.isNone_iff_eq_none]

theorem full_iff : s.full r = true ↔ ∀ q, r.has q = true → (s q).isSome = true := by
  rw [Range.forall_has]
  simp only [Space.full,List.all_eq_true,List.mem_range]

theorem mmap_eq_some {reply : Option ℕ} (h : s.mmap reply n f = some (p,t)) :
    reply = some p ∧ 0 < p ∧ s.free ⟨p,n⟩ = true ∧ t = s.place ⟨p,n⟩ fun i => some (f i) := by
  cases reply with
  | none => cases h
  | some a =>
    simp only [Space.mmap] at h
    split at h
    · next hok =>
      cases h
      exact ⟨rfl,hok.1,hok.2,rfl⟩
    · cases h

theorem mremap_eq_some {reply : Option ℕ} (h : s.mremap reply r n f = some (p,t)) :
    reply = some p ∧ 0 < p ∧ (s.drop r).free ⟨p,n⟩ = true ∧
      t = (s.drop r).place ⟨p,n⟩ fun i => if i < r.len then s (r.start+i) else some (f i) := by
  cases reply with
  | none => cases h
  | some a =>
    simp only [Space.mremap] at h
    split at h
    · next hok =>
      cases h
      exact ⟨rfl,hok.1,hok.2,rfl⟩
    · cases h

theorem place_apply (s : Space α) (p n : ℕ) (g : ℕ → Option α) {i : ℕ} (h : i < n) :
    s.place ⟨p,n⟩ g (p+i) = g i := by
  have hin : Range.has ⟨p,n⟩ (p+i) = true :=
    Range.has_iff.mpr ⟨Nat.le_add_right p i,Nat.add_lt_add_left h p⟩
  rw [Space.place,if_pos hin,Nat.add_sub_cancel_left]

theorem place_of_not_has (s : Space α) {r : Range} (g : ℕ → Option α) {q : ℕ}
    (h : r.has q = false) : s.place r g q = s q := if_neg (by simp [h])

/-- Placing pages where none were leaves the mapped ones. -/
theorem place_of_mapped {r : Range} (hfree : s.free r = true) (g : ℕ → Option α) {q : ℕ}
    (h : (s q).isSome = true) : s.place r g q = s q := by
  apply place_of_not_has
  by_contra hin
  rw [free_iff.mp hfree q (by simpa using hin)] at h
  cases h

theorem drop_of_not_has (s : Space α) {r : Range} {q : ℕ} (h : r.has q = false) :
    s.drop r q = s q := if_neg (by simp [h])

/-- Dropping pages that were placed where none were undoes it. -/
theorem drop_place (hfree : s.free r = true) (g : ℕ → Option α) : (s.place r g).drop r = s := by
  funext q
  cases hq : r.has q with
  | true => rw [Space.drop,if_pos hq,free_iff.mp hfree q hq]
  | false => rw [drop_of_not_has _ hq,place_of_not_has s g hq]

theorem drop_of_empty (s : Space α) {r : Range} (h : r.len = 0) : s.drop r = s := by
  funext q
  refine drop_of_not_has s ?_
  simp only [Range.has,h,Bool.and_eq_false_iff,decide_eq_false_iff_not]
  omega

end Calls

section Tiling

variable {α β : Type*} {extent : β → Range} {s : Space α} {l m : List β} {b : β}

/-- Each mapped page is in the range of exactly one owner, each other page in none. -/
def Tiles (extent : β → Range) (s : Space α) (l : List β) : Prop :=
  ∀ q, (l.countP fun b => (extent b).has q) = if (s q).isSome then 1 else 0

theorem Tiles.perm (h : Tiles extent s l) (hp : l.Perm m) : Tiles extent s m :=
  fun q => by rw [← hp.countP_eq]; exact h q

theorem Tiles.mapped (h : Tiles extent s l) (hb : b ∈ l) {q : ℕ} (hq : (extent b).has q = true) :
    (s q).isSome = true := by
  have hpos : 0 < l.countP fun b => (extent b).has q := List.countP_pos_iff.mpr ⟨b,hb,hq⟩
  rw [h q] at hpos
  by_contra hnone
  rw [if_neg hnone] at hpos
  exact Nat.lt_irrefl 0 hpos

theorem Tiles.cons_of_empty (h : Tiles extent s l) (hb : (extent b).len = 0) :
    Tiles extent s (b::l) := by
  intro q
  have hout : (extent b).has q = false := by
    simp only [Range.has,hb,Bool.and_eq_false_iff,decide_eq_false_iff_not]
    omega
  rw [List.countP_cons,hout,h q]
  rfl

theorem Tiles.place (h : Tiles extent s l) (hfree : s.free (extent b) = true) {f : ℕ → Option α}
    (hf : ∀ i < (extent b).len, (f i).isSome = true) :
    Tiles extent (s.place (extent b) f) (b::l) := by
  intro q
  rw [List.countP_cons,h q]
  cases hq : (extent b).has q with
  | true =>
    have hin := Range.has_iff.mp hq
    simp [Space.place,hq,free_iff.mp hfree q hq,hf (q-(extent b).start) (by omega)]
  | false => simp [place_of_not_has s f hq]

variable [DecidableEq β]

theorem Tiles.drop (h : Tiles extent s l) (hb : b ∈ l) :
    Tiles extent (s.drop (extent b)) (l.erase b) := by
  intro q
  rw [List.countP_erase,h q]
  cases hq : (extent b).has q with
  | true => simp [Space.drop,hq,h.mapped hb hq,hb]
  | false => simp [drop_of_not_has s hq]

theorem Tiles.relabel (h : Tiles extent s l) (hb : b ∈ l) {c : β} (hc : extent c = extent b) :
    Tiles extent s (c::l.erase b) := by
  intro q
  have hcount := h.perm (List.perm_cons_erase hb) q
  rwa [List.countP_cons,← hc,← List.countP_cons] at hcount

/-- A page of one owner is outside the range of every other. -/
theorem Tiles.apart (h : Tiles extent s l) (hb : b ∈ l) {c : β} (hc : c ∈ l.erase b) {q : ℕ}
    (hq : (extent c).has q = true) : (extent b).has q = false := by
  by_contra hbq
  have hdrop := (h.drop hb).mapped hc hq
  rw [Space.drop,if_pos (by simpa using hbq)] at hdrop
  cases hdrop

end Tiling

end WinterLily.Pages
