import WinterLily.Base.Bytes
import Mathlib.Data.BitVec
import Mathlib.Data.List.Basic

/-! Byte memory behind a permission map. Addresses wrap at the word size, and the first byte of an
access that is not permitted is the one reported. -/
namespace WinterLily.Memory

variable {w : ℕ}

abbrev Byte := BitVec 8

abbrev Mem (w : ℕ) := BitVec w → Byte

inductive Access
  | read
  | write
  deriving DecidableEq, Repr

/-- The two ways an access is refused. -/
inductive Fault
  | segv
  | bus
  deriving DecidableEq, Repr

/-- What touching a byte raises, if anything. -/
abbrev Perms (w : ℕ) := Access → BitVec w → Option Fault

structure Trap (w : ℕ) where
  fault : Fault
  addr : BitVec w
  deriving DecidableEq, Repr

/-- The first byte of `[a, a + n)` that the access may not touch. -/
def Perms.probe (p : Perms w) (acc : Access) (a : BitVec w) (n : ℕ) : Option (Trap w) :=
  (List.range n).findSome? fun i =>
    (p acc (a+BitVec.ofNat w i)).map fun f => ⟨f,a+BitVec.ofNat w i⟩

/-- Every byte of `[a, a + n)` may be touched. -/
def Perms.Allows (p : Perms w) (acc : Access) (a : BitVec w) (n : ℕ) : Prop :=
  ∀ i < n, p acc (a+BitVec.ofNat w i) = none

instance (p : Perms w) (acc : Access) (a : BitVec w) (n : ℕ) : Decidable (p.Allows acc a n) :=
  inferInstanceAs (Decidable (∀ i, i < n → p acc (a+BitVec.ofNat w i) = none))

theorem probe_eq_none_iff {p : Perms w} {acc : Access} {a : BitVec w} {n : ℕ} :
    p.probe acc a n = none ↔ p.Allows acc a n := by
  simp [Perms.probe,Perms.Allows,List.findSome?_eq_none_iff]

theorem Allows.mono {p : Perms w} {acc : Access} {a : BitVec w} {m n : ℕ}
    (h : p.Allows acc a n) (hm : m ≤ n) : p.Allows acc a m := fun i hi => h i (hi.trans_le hm)

/-- An access splits at any byte. -/
theorem allows_add {p : Perms w} {acc : Access} {a : BitVec w} {m n : ℕ} :
    p.Allows acc a (m+n) ↔ p.Allows acc a m ∧ p.Allows acc (a+BitVec.ofNat w m) n := by
  constructor
  · intro h
    refine ⟨Allows.mono h (by omega),fun i hi => ?_⟩
    rw [BitVec.add_assoc,← BitVec.ofNat_add]
    exact h (m+i) (by omega)
  · rintro ⟨h₁,h₂⟩ i hi
    by_cases him : i < m
    · exact h₁ i him
    · have := h₂ (i-m) (by omega)
      rw [BitVec.add_assoc,← BitVec.ofNat_add,Nat.add_sub_cancel' (Nat.le_of_not_lt him)] at this
      exact this

/-- `n` bytes from `a` on, byte `i` becoming `f i`. -/
def Mem.fill (m : Mem w) (a : BitVec w) (n : ℕ) (f : ℕ → Byte) : Mem w :=
  fun x => if (x-a).toNat < n then f (x-a).toNat else m x

theorem fill_congr (m : Mem w) (a : BitVec w) {n : ℕ} {f g : ℕ → Byte} (h : ∀ i < n, f i = g i) :
    m.fill a n f = m.fill a n g := by
  funext x
  unfold Mem.fill
  by_cases hx : (x-a).toNat < n
  · rw [if_pos hx,if_pos hx,h _ hx]
  · rw [if_neg hx,if_neg hx]

/-- A filling leaves the bytes that are not in its range. -/
theorem fill_of_ne (m : Mem w) {a x : BitVec w} {n : ℕ} (f : ℕ → Byte)
    (h : ∀ j < n, x ≠ a+BitVec.ofNat w j) : m.fill a n f x = m x := by
  refine if_neg fun hx => h _ hx ?_
  rw [BitVec.ofNat_toNat,BitVec.setWidth_eq,BitVec.add_comm,BitVec.sub_add_cancel]

/-- A filling seen from its own start. -/
theorem fill_ofNat (m : Mem w) (a : BitVec w) {n i : ℕ} (f : ℕ → Byte) (hi : i < 2^w) :
    m.fill a n f (a+BitVec.ofNat w i) = if i < n then f i else m (a+BitVec.ofNat w i) := by
  have hsub : (a+BitVec.ofNat w i-a).toNat = i := by
    rw [add_sub_cancel_left a (BitVec.ofNat w i),BitVec.toNat_ofNat]
    exact Nat.mod_eq_of_lt hi
  rw [Mem.fill,hsub]

theorem fill_one (m : Mem w) (a : BitVec w) (f : ℕ → Byte) :
    m.fill a 1 f = Function.update m a (f 0) := by
  funext x
  by_cases hx : x = a
  · subst hx
    simp [Mem.fill]
  · have hne : ¬ (x-a).toNat < 1 := by
      intro hc
      have hzero : x-a = 0#w := BitVec.eq_of_toNat_eq (by simpa using hc)
      exact hx (sub_eq_zero.mp hzero)
    rw [Function.update_of_ne hx,Mem.fill,if_neg hne]

/-- Filling two adjacent ranges fills their union. -/
theorem fill_fill (m : Mem w) (a : BitVec w) {n l : ℕ} (f g : ℕ → Byte) (h : n+l ≤ 2^w) :
    (m.fill a n f).fill (a+BitVec.ofNat w n) l g =
      m.fill a (n+l) fun i => if i < n then f i else g (i-n) := by
  funext x
  by_cases hl : l = 0
  · subst hl
    simp only [Mem.fill,Nat.not_lt_zero,if_false,Nat.add_zero]
    split_ifs <;> rfl
  have hn : (BitVec.ofNat w n).toNat = n := by
    rw [BitVec.toNat_ofNat]
    exact Nat.mod_eq_of_lt (by omega)
  have hu := (x-a).isLt
  have hsub : (x-(a+BitVec.ofNat w n)).toNat = (2^w-n+(x-a).toNat) % 2^w := by
    rw [← BitVec.sub_sub,BitVec.toNat_sub,hn]
  simp only [Mem.fill]
  by_cases hx : (x-a).toNat < n
  · have hge : ¬ (2^w-n+(x-a).toNat) % 2^w < l := by
      rw [Nat.mod_eq_of_lt (by omega)]
      omega
    rw [hsub,if_neg hge,if_pos hx,if_pos (by omega),if_pos hx]
  · have heq : (2^w-n+(x-a).toNat) % 2^w = (x-a).toNat-n := by
      rw [Nat.mod_eq_sub_mod (by omega),Nat.mod_eq_of_lt (by omega)]
      omega
    rw [hsub,heq]
    by_cases hlt : (x-a).toNat-n < l
    · rw [if_pos hlt,if_pos (by omega),if_neg hx]
    · rw [if_neg hlt,if_neg hx,if_neg (by omega)]

/-- The address of a byte in a range that does not wrap. -/
theorem add_ofNat_toNat {a : BitVec w} {i : ℕ} (h : a.toNat+i < 2^w) :
    (a+BitVec.ofNat w i).toNat = a.toNat+i := by
  rw [BitVec.toNat_add,BitVec.toNat_ofNat,Nat.mod_eq_of_lt (show i < 2^w by omega),
    Nat.mod_eq_of_lt h]

/-- Membership in a range that does not wrap. -/
theorem sub_toNat_lt_iff {a : BitVec w} {n : ℕ} (h : a.toNat+n ≤ 2^w) (x : BitVec w) :
    (x-a).toNat < n ↔ a.toNat ≤ x.toNat ∧ x.toNat < a.toNat+n := by
  have hx := x.isLt
  have ha := a.isLt
  rw [BitVec.toNat_sub]
  by_cases hle : a.toNat ≤ x.toNat
  · rw [Nat.mod_eq_sub_mod (by omega),Nat.mod_eq_of_lt (by omega)]
    omega
  · rw [Nat.mod_eq_of_lt (by omega)]
    omega

/-- The bytes a filling changes, when the range does not wrap. -/
theorem fill_apply (m : Mem w) {a : BitVec w} {n : ℕ} (f : ℕ → Byte) (h : a.toNat+n ≤ 2^w)
    (x : BitVec w) :
    m.fill a n f x =
      if a.toNat ≤ x.toNat ∧ x.toNat < a.toNat+n then f (x.toNat-a.toNat) else m x := by
  unfold Mem.fill
  by_cases hx : a.toNat ≤ x.toNat ∧ x.toNat < a.toNat+n
  · rw [if_pos hx,if_pos ((sub_toNat_lt_iff h x).mpr hx),BitVec.toNat_sub_of_le]
    exact hx.1
  · rw [if_neg hx,if_neg fun hc => hx ((sub_toNat_lt_iff h x).mp hc)]

/-- A span of addresses, which may go over the end of the address space. -/
structure Span (w : ℕ) where
  addr : BitVec w
  len : BitVec w
  deriving DecidableEq, Repr

instance : Membership (BitVec w) (Span w) := ⟨fun r x => (x-r.addr).toNat < r.len.toNat⟩

theorem Span.mem_iff {r : Span w} {x : BitVec w} : x ∈ r ↔ (x-r.addr).toNat < r.len.toNat := Iff.rfl

instance (r : Span w) (x : BitVec w) : Decidable (x ∈ r) :=
  inferInstanceAs (Decidable ((x-r.addr).toNat < r.len.toNat))

/-- The spans have an address in common: one of them starts inside the other. -/
def Span.meets (r s : Span w) : Bool :=
  0 < s.len.toNat && decide (s.addr ∈ r) || 0 < r.len.toNat && decide (r.addr ∈ s)

theorem Span.meets_iff {r s : Span w} : r.meets s = true ↔ ∃ x, x ∈ r ∧ x ∈ s := by
  simp only [Span.meets,Bool.or_eq_true,Bool.and_eq_true,decide_eq_true_eq]
  constructor
  · rintro (⟨hs,hmem⟩ | ⟨hr,hmem⟩)
    · exact ⟨s.addr,hmem,by simpa [Span.mem_iff] using hs⟩
    · exact ⟨r.addr,by simpa [Span.mem_iff] using hr,hmem⟩
  · rintro ⟨x,hr,hs⟩
    rw [Span.mem_iff] at hr hs
    -- the span whose start is closer to `x` starts inside the other one
    have hdist : ∀ {a b : Span w}, (x-a.addr).toNat < a.len.toNat →
        (x-b.addr).toNat ≤ (x-a.addr).toNat → b.addr ∈ a := by
      intro a b ha hle
      have hsub : b.addr-a.addr = (x-a.addr)-(x-b.addr) :=
        (sub_sub_sub_cancel_left a.addr b.addr x).symm
      rw [Span.mem_iff,hsub,BitVec.toNat_sub_of_le hle]
      omega
    cases Nat.le_total (x-s.addr).toNat (x-r.addr).toNat with
    | inl hle => exact .inl ⟨by omega,hdist hr hle⟩
    | inr hle => exact .inr ⟨by omega,hdist hs hle⟩

/-- A span that meets no address of another starts outside it and ends before it. -/
theorem Span.meets_eq_false_iff {r s : Span w} (hs : 0 < s.len.toNat) : r.meets s = false ↔
    r.len.toNat = 0 ∨ r.addr ∉ s ∧ r.len.toNat ≤ (s.addr-r.addr).toNat := by
  simp only [Span.meets,Bool.or_eq_false_iff,Bool.and_eq_false_iff,decide_eq_false_iff_not,
    Span.mem_iff]
  omega

section Relative

/-- `copy_nonoverlapping(src, dst, n)`. -/
def Mem.copy (m : Mem w) (src dst : BitVec w) (n : ℕ) : Mem w :=
  m.fill dst n fun i => m (src+BitVec.ofNat w i)

variable {m : Mem w} {p o j : BitVec w} {n : ℕ}

/-- A filling seen from a base address: it starts at offset `o` and is read at offset `j`. -/
theorem fill_add (f : ℕ → Byte) (h : o.toNat+n ≤ 2^w) :
    m.fill (p+o) n f (p+j) =
      if o.toNat ≤ j.toNat ∧ j.toNat < o.toNat+n then f (j.toNat-o.toNat) else m (p+j) := by
  unfold Mem.fill
  rw [add_sub_add_left_eq_sub]
  by_cases hj : o.toNat ≤ j.toNat ∧ j.toNat < o.toNat+n
  · rw [if_pos hj,if_pos ((sub_toNat_lt_iff h j).mpr hj),BitVec.toNat_sub_of_le]
    exact hj.1
  · rw [if_neg hj,if_neg fun hc => hj ((sub_toNat_lt_iff h j).mp hc)]

theorem fill_add_of_mem (f : ℕ → Byte) (h : o.toNat+n ≤ 2^w) (hlo : o.toNat ≤ j.toNat)
    (hhi : j.toNat < o.toNat+n) : m.fill (p+o) n f (p+j) = f (j.toNat-o.toNat) := by
  rw [fill_add f h,if_pos ⟨hlo,hhi⟩]

theorem fill_add_of_not_mem (f : ℕ → Byte) (h : o.toNat+n ≤ 2^w)
    (hj : ¬ (o.toNat ≤ j.toNat ∧ j.toNat < o.toNat+n)) : m.fill (p+o) n f (p+j) = m (p+j) := by
  rw [fill_add f h,if_neg hj]

/-- A copy between the same offsets of two bases. -/
theorem copy_add_of_mem {q : BitVec w} (h : o.toNat+n ≤ 2^w) (hlo : o.toNat ≤ j.toNat)
    (hhi : j.toNat < o.toNat+n) : m.copy (q+o) (p+o) n (p+j) = m (q+j) := by
  have hj : o+BitVec.ofNat w (j.toNat-o.toNat) = j := by
    rw [← BitVec.toNat_sub_of_le hlo,BitVec.ofNat_toNat,BitVec.setWidth_eq]
    exact add_sub_cancel o j
  unfold Mem.copy
  rw [fill_add_of_mem _ h hlo hhi,BitVec.add_assoc,hj]

end Relative

section Words

/-- The little-endian word at `a`. -/
def Mem.word (m : Mem w) (a : BitVec w) : BitVec 64 :=
  BitVec.ofNat 64 (Bytes.ofLE ((List.range 8).map fun i => m (a+BitVec.ofNat w i)))

def Mem.setWord (m : Mem w) (a : BitVec w) (v : BitVec 64) : Mem w :=
  m.fill a 8 fun i => BitVec.ofNat 8 (v.toNat/256^i)

theorem word_congr {m m' : Mem w} {a : BitVec w}
    (h : ∀ i < 8, m (a+BitVec.ofNat w i) = m' (a+BitVec.ofNat w i)) : m.word a = m'.word a := by
  unfold Mem.word
  congr 2
  exact List.map_congr_left fun i hi => h i (List.mem_range.mp hi)

lemma map_range_eq_toLE (l n : ℕ) :
    ((List.range l).map fun i => BitVec.ofNat 8 (n/256^i)) = Bytes.toLE l n := by
  induction l generalizing n with
  | zero => rfl
  | succ l ih =>
    have hdiv : ∀ i, n/256^(i+1) = n/256/256^i := fun i => by
      rw [Nat.div_div_eq_div_mul,pow_succ']
    rw [List.range_succ_eq_map,List.map_cons,List.map_map,Bytes.toLE,← ih]
    simp [Function.comp_def,hdiv]

/-- A word read inside a filled range. -/
theorem word_fill (m : Mem w) (a : BitVec w) {k : BitVec w} {n : ℕ} (f : ℕ → Byte)
    (hk : k.toNat+8 ≤ n) (hn : n ≤ 2^w) :
    (m.fill a n f).word (a+k) =
      BitVec.ofNat 64 (Bytes.ofLE ((List.range 8).map fun i => f (k.toNat+i))) := by
  unfold Mem.word
  congr 2
  refine List.map_congr_left fun i hi => ?_
  have hi : i < 8 := List.mem_range.mp hi
  have hoff : (k+BitVec.ofNat w i).toNat = k.toNat+i := add_ofNat_toNat (by omega)
  have ha : a+k+BitVec.ofNat w i-a = k+BitVec.ofNat w i := by
    rw [BitVec.add_assoc]
    exact add_sub_cancel_left a _
  unfold Mem.fill
  rw [ha,hoff,if_pos (by omega)]

theorem word_setWord (hw : 8 ≤ 2^w) (m : Mem w) (a : BitVec w) (v : BitVec 64) :
    (m.setWord a v).word a = v := by
  have h := word_fill m a (k := 0#w) (fun i => BitVec.ofNat 8 (v.toNat/256^i)) (by simp) hw
  rw [BitVec.add_zero] at h
  unfold Mem.setWord
  rw [h,BitVec.toNat_zero]
  simp only [Nat.zero_add]
  rw [map_range_eq_toLE,Bytes.ofLE_toLE 8 v.toNat (by have := v.isLt; omega),BitVec.ofNat_toNat,
    BitVec.setWidth_eq]

end Words

end WinterLily.Memory
