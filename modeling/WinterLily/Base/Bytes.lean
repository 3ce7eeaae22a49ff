import Mathlib.Data.List.Basic
import Mathlib.Data.BitVec

/-! Windows into a byte buffer with the bounds checks of a slice, `none` standing for the panic of
a failed one, and little-endian words. -/
namespace WinterLily.Bytes

abbrev Byte := BitVec 8

/-- A window `lo..hi` into some buffer. -/
structure Slice where
  lo : ℕ
  hi : ℕ
  deriving DecidableEq, Repr

section Slice

variable {α : Type*}

def whole (l : List α) : Slice := ⟨0,l.length⟩

/-- `s[a..]`. -/
def Slice.after (s : Slice) (a : ℕ) : Option Slice :=
  if s.lo+a ≤ s.hi then some ⟨s.lo+a,s.hi⟩ else none

/-- `s[..a]`. -/
def Slice.upTo (s : Slice) (a : ℕ) : Option Slice :=
  if s.lo+a ≤ s.hi then some ⟨s.lo,s.lo+a⟩ else none

/-- `s[a..b]`. -/
def Slice.range (s : Slice) (a b : ℕ) : Option Slice :=
  if a ≤ b ∧ s.lo+b ≤ s.hi then some ⟨s.lo+a,s.lo+b⟩ else none

/-- The elements the window shows. -/
def Slice.get (s : Slice) (l : List α) : List α := (l.take s.hi).drop s.lo

/-- `s.copy_from_slice(bs)`. -/
def Slice.copyFrom (s : Slice) (l bs : List α) : Option (List α) :=
  if s.hi-s.lo = bs.length then some (l.take s.lo++bs++l.drop s.hi) else none

/-- `s[i] = x`. -/
def Slice.setAt (s : Slice) (l : List α) (i : ℕ) (x : α) : Option (List α) :=
  if s.lo+i < s.hi then some (l.set (s.lo+i) x) else none

lemma after_some {s : Slice} {a : ℕ} (h : s.lo+a ≤ s.hi) : s.after a = some ⟨s.lo+a,s.hi⟩ :=
  if_pos h

lemma upTo_some {s : Slice} {a : ℕ} (h : s.lo+a ≤ s.hi) : s.upTo a = some ⟨s.lo,s.lo+a⟩ :=
  if_pos h

lemma after_eq_some {s w : Slice} {a : ℕ} :
    s.after a = some w ↔ s.lo+a ≤ s.hi ∧ w = ⟨s.lo+a,s.hi⟩ := by
  unfold Slice.after
  split <;> simp_all [eq_comm]

lemma upTo_eq_some {s w : Slice} {a : ℕ} :
    s.upTo a = some w ↔ s.lo+a ≤ s.hi ∧ w = ⟨s.lo,s.lo+a⟩ := by
  unfold Slice.upTo
  split <;> simp_all [eq_comm]

lemma range_eq_some {s w : Slice} {a b : ℕ} :
    s.range a b = some w ↔ (a ≤ b ∧ s.lo+b ≤ s.hi) ∧ w = ⟨s.lo+a,s.lo+b⟩ := by
  unfold Slice.range
  split <;> simp_all [eq_comm]

/-- A window that reaches the end of the buffer shows the rest of it. -/
lemma get_to_end (l : List α) (a : ℕ) : (⟨a,l.length⟩ : Slice).get l = l.drop a := by
  simp [Slice.get]

/-- Copying over the middle of a buffer. -/
lemma copyFrom_append (a b c bs : List α) {s : Slice} (hlo : s.lo = a.length)
    (hhi : s.hi = a.length+b.length) (h : bs.length = b.length) :
    s.copyFrom (a++b++c) bs = some (a++bs++c) := by
  unfold Slice.copyFrom
  rw [if_pos (by omega),hlo,hhi]
  simp [List.append_assoc,List.drop_append]

lemma setAt_append (a c : List α) (x y : α) {s : Slice} {i : ℕ} (hi : s.lo+i = a.length)
    (h : a.length < s.hi) : s.setAt (a++x::c) i y = some (a++y::c) := by
  unfold Slice.setAt
  rw [if_pos (by omega),hi]
  simp

lemma copyFrom_length {s : Slice} {l l' bs : List α} (h : s.copyFrom l bs = some l')
    (hlo : s.lo ≤ s.hi) (hhi : s.hi ≤ l.length) : l'.length = l.length := by
  unfold Slice.copyFrom at h
  split at h
  · cases h
    simp only [List.length_append,List.length_take,List.length_drop]
    omega
  · cases h

lemma setAt_length {s : Slice} {l l' : List α} {i : ℕ} {x : α} (h : s.setAt l i x = some l') :
    l'.length = l.length := by
  unfold Slice.setAt at h
  split at h
  · cases h
    exact List.length_set
  · cases h

/-- A write through a window leaves what lies beyond the window. -/
lemma copyFrom_drop {s : Slice} {l l' bs : List α} {n : ℕ}
    (h : s.copyFrom l bs = some l') (hlo : s.lo ≤ s.hi) (hhi : s.hi ≤ n) (hl : s.lo ≤ l.length) :
    l'.drop n = l.drop n := by
  unfold Slice.copyFrom at h
  split at h
  · next hlen =>
    cases h
    have hfront : (l.take s.lo++bs).length = s.hi := by
      simp only [List.length_append,List.length_take]
      omega
    rw [List.drop_append,hfront,List.drop_eq_nil_of_le (by omega),List.nil_append,List.drop_drop,
      Nat.add_sub_cancel' hhi]
  · cases h

lemma setAt_drop {s : Slice} {l l' : List α} {n i : ℕ} {x : α} (h : s.setAt l i x = some l')
    (hhi : s.hi ≤ n) : l'.drop n = l.drop n := by
  unfold Slice.setAt at h
  split at h
  · cases h
    exact List.drop_set_of_lt (by omega)
  · cases h

end Slice

/-- `n.to_le_bytes()` for a word of `w` bytes. -/
def toLE : ℕ → ℕ → List Byte
  | 0,_ => []
  | w+1,n => BitVec.ofNat 8 n::toLE w (n/256)

/-- `from_le_bytes`. -/
def ofLE : List Byte → ℕ
  | [] => 0
  | b::bs => b.toNat+256*ofLE bs

@[simp] lemma toLE_length (w n : ℕ) : (toLE w n).length = w := by
  induction w generalizing n with
  | zero => rfl
  | succ w ih => simp [toLE,ih]

theorem ofLE_toLE (w n : ℕ) (h : n < 256^w) : ofLE (toLE w n) = n := by
  induction w generalizing n with
  | zero => simp at h; simp [toLE,ofLE,h]
  | succ w ih =>
    have hq : n/256 < 256^w := by
      rw [Nat.div_lt_iff_lt_mul (by omega)]
      rwa [pow_succ] at h
    simp only [toLE,ofLE,ih _ hq,BitVec.toNat_ofNat]
    omega

end WinterLily.Bytes
