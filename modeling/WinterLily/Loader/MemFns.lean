import WinterLily.Base.Memory
import Mathlib.Data.Nat.Find

/-! `memmove`, `memcpy` and `memcmp` of `wl-ld-lilium/src/helpers.rs`, which the compiler calls. Both
copies go upwards byte by byte, and the comparison takes the bytes for signed ones. -/
namespace WinterLily.MemFns
open WinterLily.Memory

abbrev Word := BitVec 64

section Copies

/-- The first `n` rounds of the loop of both copies. -/
def copyUpwards (dest src : Word) : ℕ → Mem 64 → Mem 64
  | 0,m => m
  | n+1,m =>
    let m := copyUpwards dest src n m
    Function.update m (dest+BitVec.ofNat 64 n) (m (src+BitVec.ofNat 64 n))

/-- `memmove`: the memory it leaves and the pointer it returns. -/
def memmove (dest src len : Word) (m : Mem 64) : Mem 64 × Word :=
  (copyUpwards dest src len.toNat m,dest)

/-- `memcpy`. -/
def memcpy (dest src len : Word) (m : Mem 64) : Mem 64 × Word :=
  (copyUpwards dest src len.toNat m,dest)

variable {dest src len : Word} {m : Mem 64} {n : ℕ}

lemma update_fill (m : Mem 64) (a : Word) {n : ℕ} (f : ℕ → Byte) (hn : n < 2^64) :
    Function.update (m.fill a n f) (a+BitVec.ofNat 64 n) (f n) = m.fill a (n+1) f := by
  have hone := fill_one (m.fill a n f) (a+BitVec.ofNat 64 n) fun i => f (n+i)
  rw [Nat.add_zero] at hone
  rw [← hone,fill_fill m a f _ (by omega)]
  refine fill_congr m a fun i hi => ?_
  split_ifs with hlt
  · rfl
  · rw [Nat.add_sub_cancel' (Nat.le_of_not_lt hlt)]

/-- A byte of the source that has been overwritten was overwritten from further down, and so it
repeats the first bytes, as many as the distance has. -/
lemma copyUpwards_eq (dest src : Word) (m : Mem 64) (hn : n ≤ 2^64) :
    copyUpwards dest src n m =
      m.fill dest n fun i => m (src+BitVec.ofNat 64 (i%(dest-src).toNat)) := by
  induction n with
  | zero =>
    funext x
    exact (if_neg (Nat.not_lt_zero _)).symm
  | succ n ih =>
    have hd := (dest-src).isLt
    have hread : copyUpwards dest src n m (src+BitVec.ofNat 64 n) =
        m (src+BitVec.ofNat 64 (n%(dest-src).toNat)) := by
      have hoff : src+BitVec.ofNat 64 n-dest = BitVec.ofNat 64 n-(dest-src) := by
        rw [add_sub_assoc,sub_sub_eq_add_sub,add_sub_assoc,add_sub_left_comm]
      rw [ih (by omega),Mem.fill,hoff,BitVec.toNat_sub,BitVec.toNat_ofNat,
        Nat.mod_eq_of_lt (show n < 2^64 by omega)]
      by_cases hle : (dest-src).toNat ≤ n
      · have hsub : (2^64-(dest-src).toNat+n)%2^64 = n-(dest-src).toNat := by omega
        rw [hsub,← Nat.mod_eq_sub_mod hle]
        by_cases hzero : (dest-src).toNat = 0
        · rw [hzero,Nat.sub_zero,Nat.mod_zero,if_neg (lt_irrefl n)]
        · rw [if_pos (by omega)]
      · rw [Nat.mod_eq_of_lt (show n < (dest-src).toNat by omega),if_neg (by omega)]
    rw [copyUpwards,hread,ih (by omega)]
    exact update_fill m dest _ (by omega)

/-- The destination holds what the source held, and nothing else has changed. -/
def Moved (dest src : Word) (n : ℕ) (m m' : Mem 64) : Prop :=
  (∀ i < n, m' (dest+BitVec.ofNat 64 i) = m (src+BitVec.ofNat 64 i)) ∧
    ∀ x, (∀ i < n, x ≠ dest+BitVec.ofNat 64 i) → m' x = m x

/-- What is copied upwards is right where the source repeats its first bytes. -/
lemma moved_copyUpwards_iff (hn : n ≤ 2^64) :
    Moved dest src n m (copyUpwards dest src n m) ↔
      ∀ i < n, m (src+BitVec.ofNat 64 (i%(dest-src).toNat)) = m (src+BitVec.ofNat 64 i) := by
  rw [copyUpwards_eq dest src m hn]
  constructor
  · rintro ⟨h,-⟩ i hi
    rw [← h i hi,fill_ofNat m dest _ (by omega),if_pos hi]
  · intro h
    refine ⟨fun i hi => ?_,fun x hx => fill_of_ne m _ hx⟩
    rw [fill_ofNat m dest _ (by omega),if_pos hi,h i hi]

/-- A destination at the source or beyond it takes no byte that is still to be read. -/
lemma mod_eq_of_ahead {i : ℕ} (h : dest = src ∨ n ≤ (dest-src).toNat) (hi : i < n) :
    i%(dest-src).toNat = i := by
  rcases h with rfl | h
  · rw [sub_self]
    exact Nat.mod_zero i
  · exact Nat.mod_eq_of_lt (by omega)

/-- `memmove` is right if the destination does not begin inside the source, past its first byte, and
otherwise only if the source repeats itself at the distance of the two. -/
theorem memmove_iff (dest src len : Word) (m : Mem 64) :
    (memmove dest src len m).2 = dest ∧ Moved dest src len.toNat m (memmove dest src len m).1 ↔
      dest = src ∨ len.toNat ≤ (dest-src).toNat ∨ ∀ i < len.toNat,
        m (src+BitVec.ofNat 64 (i%(dest-src).toNat)) = m (src+BitVec.ofNat 64 i) := by
  unfold memmove
  rw [moved_copyUpwards_iff len.isLt.le,← or_assoc]
  constructor
  · exact fun h => .inr h.2
  · rintro (hahead | h)
    · exact ⟨rfl,fun i hi => by rw [mod_eq_of_ahead hahead hi]⟩
    · exact ⟨rfl,h⟩

/-- `memcpy` is right on ranges that have no byte in common. -/
theorem memcpy_moves (h : ∀ i < len.toNat, ∀ j < len.toNat,
    src+BitVec.ofNat 64 i ≠ dest+BitVec.ofNat 64 j) :
    Moved dest src len.toNat m (memcpy dest src len m).1 := by
  refine (moved_copyUpwards_iff len.isLt.le).mpr fun i hi => ?_
  have hahead : len.toNat ≤ (dest-src).toNat := by
    by_contra hlt
    refine h (dest-src).toNat (by omega) 0 (by omega) ?_
    rw [BitVec.ofNat_toNat,BitVec.setWidth_eq,BitVec.add_zero]
    exact add_sub_cancel src dest
  rw [mod_eq_of_ahead (.inr hahead) hi]

/-- The byte at each address is its last digit. -/
def digits : Mem 64 := fun a => BitVec.ofNat 8 (a.toNat%16)

/-- Two bytes moved up by one become two copies of the first. -/
theorem memmove_repeats_first :
    (memmove 0x1001#64 0x1000#64 2#64 digits).1 0x1002#64 = digits 0x1000#64 ∧
      digits 0x1000#64 ≠ digits 0x1001#64 ∧
      ¬ Moved 0x1001#64 0x1000#64 2 digits (memmove 0x1001#64 0x1000#64 2#64 digits).1 := by
  refine ⟨by decide,by decide,fun h => ?_⟩
  exact absurd (h.1 1 (by decide)) (by decide)

end Copies

section Compare

/-- The rounds of `memcmp` from `i` on. -/
def compareFrom (m : Mem 64) (a b : Word) : ℕ → ℕ → ℤ
  | 0,_ => 0
  | n+1,i =>
    let d := (m (a+BitVec.ofNat 64 i)-m (b+BitVec.ofNat 64 i)).toInt
    if d = 0 then compareFrom m a b n (i+1) else if d ≤ -1 then -1 else 1

/-- `memcmp`; the difference of two `i8` wraps. -/
def memcmp (m : Mem 64) (a b len : Word) : ℤ := compareFrom m a b len.toNat 0

variable {m : Mem 64} {a b len : Word} {n i : ℕ}

/-- The arrays differ at `i` and not before. -/
def FirstDifference (m : Mem 64) (a b : Word) (i : ℕ) : Prop :=
  m (a+BitVec.ofNat 64 i) ≠ m (b+BitVec.ofNat 64 i) ∧
    ∀ j < i, m (a+BitVec.ofNat 64 j) = m (b+BitVec.ofNat 64 j)

/-- The result tells the order of the arrays by the first byte in which they differ, unsigned. -/
structure Lexicographic (m : Mem 64) (a b : Word) (n : ℕ) (r : ℤ) : Prop where
  zero_iff : r = 0 ↔ ∀ i < n, m (a+BitVec.ofNat 64 i) = m (b+BitVec.ofNat 64 i)
  neg_iff : r < 0 ↔ ∃ i < n, FirstDifference m a b i ∧
    m (a+BitVec.ofNat 64 i) < m (b+BitVec.ofNat 64 i)
  pos_iff : 0 < r ↔ ∃ i < n, FirstDifference m a b i ∧
    m (b+BitVec.ofNat 64 i) < m (a+BitVec.ofNat 64 i)

lemma FirstDifference.unique {j : ℕ} (hi : FirstDifference m a b i)
    (hj : FirstDifference m a b j) : i = j := by
  rcases Nat.lt_trichotomy i j with h | h | h
  · exact absurd (hj.2 i h) hi.1
  · exact h
  · exact absurd (hi.2 j h) hj.1

/-- The sign of a difference of two bytes. -/
def differenceSign (x y : Byte) : ℤ := if (x-y).toInt ≤ -1 then -1 else 1

lemma compareFrom_equal (n i : ℕ)
    (h : ∀ j < n, m (a+BitVec.ofNat 64 (i+j)) = m (b+BitVec.ofNat 64 (i+j))) :
    compareFrom m a b n i = 0 := by
  induction n generalizing i with
  | zero => rfl
  | succ n ih =>
    have hfirst := h 0 (Nat.succ_pos n)
    rw [Nat.add_zero] at hfirst
    rw [compareFrom,hfirst,sub_self]
    refine (if_pos rfl).trans (ih (i+1) fun j hj => ?_)
    rw [Nat.add_right_comm,Nat.add_assoc]
    exact h (j+1) (by omega)

lemma compareFrom_differs (k n i : ℕ)
    (h : ∀ j < k, m (a+BitVec.ofNat 64 (i+j)) = m (b+BitVec.ofNat 64 (i+j)))
    (hne : m (a+BitVec.ofNat 64 (i+k)) ≠ m (b+BitVec.ofNat 64 (i+k))) (hk : k < n) :
    compareFrom m a b n i =
      differenceSign (m (a+BitVec.ofNat 64 (i+k))) (m (b+BitVec.ofNat 64 (i+k))) := by
  induction k generalizing n i with
  | zero =>
    obtain ⟨n,rfl⟩ := Nat.exists_eq_add_one.mpr hk
    rw [Nat.add_zero] at hne ⊢
    have hd : (m (a+BitVec.ofNat 64 i)-m (b+BitVec.ofNat 64 i)).toInt ≠ 0 := by
      intro hzero
      have hsub := BitVec.eq_of_toInt_eq (hzero.trans BitVec.toInt_zero.symm)
      exact hne (sub_eq_zero.mp hsub)
    rw [compareFrom]
    exact if_neg hd
  | succ k ih =>
    obtain ⟨n,rfl⟩ := Nat.exists_eq_add_one.mpr (Nat.zero_lt_of_lt hk)
    have hfirst := h 0 (Nat.succ_pos k)
    rw [Nat.add_zero] at hfirst
    have hshift : ∀ j, i+1+j = i+(j+1) := fun j => by omega
    have htail := ih n (i+1) (fun j hj => by rw [hshift]; exact h (j+1) (by omega))
      (by rw [hshift]; exact hne) (by omega)
    rw [hshift] at htail
    rw [compareFrom,hfirst,sub_self]
    exact (if_pos rfl).trans htail

/-- The sign is that of the unsigned order as long as the difference fits an `i8`. -/
lemma differenceSign_neg_iff (x y : Byte) (hne : x ≠ y) :
    (differenceSign x y < 0 ↔ x < y) ↔
      -128 ≤ (x.toNat : ℤ)-y.toNat ∧ (x.toNat : ℤ)-y.toNat ≤ 127 := by
  have hx := x.isLt
  have hy := y.isLt
  have hne : x.toNat ≠ y.toNat := fun h => hne (BitVec.eq_of_toNat_eq h)
  have hsub : (x-y).toNat = (256-y.toNat+x.toNat)%256 := BitVec.toNat_sub x y
  unfold differenceSign
  rw [BitVec.toInt_eq_toNat_cond,hsub,BitVec.lt_def]
  split_ifs <;> omega

lemma differenceSign_cases (x y : Byte) : differenceSign x y = -1 ∨ differenceSign x y = 1 := by
  unfold differenceSign
  split_ifs <;> simp

/-- At a first difference the result is right if its sign is. -/
lemma lexicographic_iff_at (hi : FirstDifference m a b i) (hn : i < n) {r : ℤ}
    (hr : r = -1 ∨ r = 1) : Lexicographic m a b n r ↔
      (r < 0 ↔ m (a+BitVec.ofNat 64 i) < m (b+BitVec.ofNat 64 i)) := by
  have hneg : (∃ j < n, FirstDifference m a b j ∧
      m (a+BitVec.ofNat 64 j) < m (b+BitVec.ofNat 64 j)) ↔
      m (a+BitVec.ofNat 64 i) < m (b+BitVec.ofNat 64 i) :=
    ⟨fun ⟨j,_,hj,hlt⟩ => by rwa [hi.unique hj],fun hlt => ⟨i,hn,hi,hlt⟩⟩
  have hpos : (∃ j < n, FirstDifference m a b j ∧
      m (b+BitVec.ofNat 64 j) < m (a+BitVec.ofNat 64 j)) ↔
      m (b+BitVec.ofNat 64 i) < m (a+BitVec.ofNat 64 i) :=
    ⟨fun ⟨j,_,hj,hlt⟩ => by rwa [hi.unique hj],fun hlt => ⟨i,hn,hi,hlt⟩⟩
  have hne : (m (a+BitVec.ofNat 64 i)).toNat ≠ (m (b+BitVec.ofNat 64 i)).toNat :=
    fun h => hi.1 (BitVec.eq_of_toNat_eq h)
  have hzero : r ≠ 0 := by rcases hr with rfl | rfl <;> decide
  constructor
  · exact fun h => h.neg_iff.trans hneg
  · intro h
    refine ⟨iff_of_false hzero fun hall => hi.1 (hall i hn),h.trans hneg.symm,?_⟩
    rw [hpos]
    rw [BitVec.lt_def] at h ⊢
    omega

/-- `memcmp` is the unsigned lexicographic order exactly where the two bytes of the first difference
are less than 128 apart, or 128 with the smaller one first. -/
theorem memcmp_iff (m : Mem 64) (a b len : Word) :
    Lexicographic m a b len.toNat (memcmp m a b len) ↔
      ∀ i < len.toNat, FirstDifference m a b i →
        -128 ≤ ((m (a+BitVec.ofNat 64 i)).toNat : ℤ)-(m (b+BitVec.ofNat 64 i)).toNat ∧
        ((m (a+BitVec.ofNat 64 i)).toNat : ℤ)-(m (b+BitVec.ofNat 64 i)).toNat ≤ 127 := by
  by_cases hall : ∀ i < len.toNat, m (a+BitVec.ofNat 64 i) = m (b+BitVec.ofNat 64 i)
  · have hzero : memcmp m a b len = 0 :=
      compareFrom_equal _ 0 fun j hj => by rw [Nat.zero_add]; exact hall j hj
    refine iff_of_true ?_ fun i hi hd => absurd (hall i hi) hd.1
    rw [hzero]
    exact ⟨iff_of_true rfl hall,
      iff_of_false (lt_irrefl 0) fun ⟨i,hi,hd,_⟩ => hd.1 (hall i hi),
      iff_of_false (lt_irrefl 0) fun ⟨i,hi,hd,_⟩ => hd.1 (hall i hi)⟩
  · push Not at hall
    obtain ⟨hn,hne⟩ := Nat.find_spec hall
    have hfirst : FirstDifference m a b (Nat.find hall) :=
      ⟨hne,fun j hj => by_contra fun h => Nat.find_min hall hj ⟨hj.trans hn,h⟩⟩
    generalize Nat.find hall = i at *
    have hres : memcmp m a b len =
        differenceSign (m (a+BitVec.ofNat 64 i)) (m (b+BitVec.ofNat 64 i)) := by
      have h := compareFrom_differs (m := m) (a := a) (b := b) i len.toNat 0
      simp only [Nat.zero_add] at h
      exact h hfirst.2 hne hn
    rw [hres,lexicographic_iff_at hfirst hn (differenceSign_cases _ _),
      differenceSign_neg_iff _ _ hne]
    constructor
    · intro h j _ hj
      rw [← hfirst.unique hj]
      exact h
    · exact fun h => h i hn hfirst

/-- Four bytes: 0, 100, 200 and 128. -/
def fourBytes : Mem 64 := fun p =>
  if p = 1#64 then 100#8 else if p = 2#64 then 200#8 else if p = 3#64 then 128#8 else 0#8

/-- 0 is before 100 and 100 before 200, but 200 before 0; and of 0 and 128 each is before the
other. -/
theorem memcmp_not_an_order :
    memcmp fourBytes 0#64 1#64 1#64 = -1 ∧ memcmp fourBytes 1#64 2#64 1#64 = -1 ∧
      memcmp fourBytes 0#64 2#64 1#64 = 1 ∧
      memcmp fourBytes 0#64 3#64 1#64 = -1 ∧ memcmp fourBytes 3#64 0#64 1#64 = -1 ∧
      ¬ Lexicographic fourBytes 0#64 2#64 1 (memcmp fourBytes 0#64 2#64 1#64) := by
  refine ⟨by decide,by decide,by decide,by decide,by decide,fun h => ?_⟩
  have hlt : fourBytes (0#64+BitVec.ofNat 64 0) < fourBytes (2#64+BitVec.ofNat 64 0) := by decide
  have hfirst : FirstDifference fourBytes 0#64 2#64 0 :=
    ⟨by decide,fun j hj => absurd hj (Nat.not_lt_zero j)⟩
  have hneg := h.neg_iff.mpr ⟨0,Nat.one_pos,hfirst,hlt⟩
  exact absurd hneg (by decide)

end Compare

end WinterLily.MemFns
