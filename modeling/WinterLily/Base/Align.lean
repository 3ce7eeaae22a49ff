import Mathlib.Data.BitVec
import Mathlib.Algebra.Order.Ring.Nat

/-! Rounding a machine word to a power of two with masks, read as division of naturals. -/
namespace WinterLily.Align

variable {w : ℕ}

/-- `v & !(a - 1)`. -/
def roundDown (v a : BitVec w) : BitVec w := v &&& ~~~(a-1#w)

/-- `(v + (a - 1)) & !(a - 1)`. -/
def roundUp (v a : BitVec w) : BitVec w := (v+(a-1#w)) &&& ~~~(a-1#w)

/-- A power of two that fits the word. -/
def IsPow2 (a : BitVec w) : Prop := ∃ k < w, a = BitVec.ofNat w (2^k)

instance (a : BitVec w) : Decidable (IsPow2 a) :=
  inferInstanceAs (Decidable (∃ k, k < w ∧ a = BitVec.ofNat w (2^k)))

/-- Rounding up without a bound on the result. -/
def up (n a : ℕ) : ℕ := (n+(a-1))/a*a

/-- Rounding down. -/
def down (n a : ℕ) : ℕ := n/a*a

theorem down_le (n a : ℕ) : down n a ≤ n := Nat.div_mul_le_self n a

theorem lt_down_add {n a : ℕ} (h : 0 < a) : n < down n a+a := by
  have := Nat.lt_div_mul_add h (a := n)
  exact this

theorem le_up {n a : ℕ} (h : 0 < a) : n ≤ up n a := by
  have := lt_down_add (n := n+(a-1)) h
  unfold down at this
  unfold up
  omega

theorem up_lt_add {n a : ℕ} (h : 0 < a) : up n a < n+a := by
  have := down_le (n+(a-1)) a
  unfold down at this
  unfold up
  omega

theorem dvd_up (n a : ℕ) : a ∣ up n a := ⟨_,Nat.mul_comm _ _⟩

lemma sub_one_toNat {a : BitVec w} (h : 0 < a.toNat) : (a-1#w).toNat = a.toNat-1 := by
  have hlt := a.isLt
  have hone : (1#w).toNat = 1 := by
    rw [BitVec.toNat_ofNat]
    exact Nat.mod_eq_of_lt (by omega)
  rw [BitVec.toNat_sub_of_le,hone]
  rw [BitVec.le_def,hone]
  exact h

lemma two_pow_toNat {k : ℕ} (hk : k < w) : (BitVec.ofNat w (2^k)).toNat = 2^k := by
  rw [BitVec.toNat_ofNat]
  exact Nat.mod_eq_of_lt (Nat.pow_lt_pow_right (by omega) hk)

/-- The mask of a power of two drops the low bits. -/
lemma roundDown_eq_shift {k : ℕ} (hk : k < w) (v : BitVec w) :
    roundDown v (BitVec.ofNat w (2^k)) = v >>> k <<< k := by
  have hmask : BitVec.ofNat w (2^k)-1#w = BitVec.ofNat w (2^k-1) := by
    have hlt : 2^k < 2^w := Nat.pow_lt_pow_right (by omega) hk
    have hpos : 0 < (BitVec.ofNat w (2^k)).toNat := by
      rw [two_pow_toNat hk]
      exact Nat.two_pow_pos k
    apply BitVec.eq_of_toNat_eq
    rw [sub_one_toNat hpos,two_pow_toNat hk,BitVec.toNat_ofNat,Nat.mod_eq_of_lt (by omega)]
  rw [roundDown,hmask]
  apply BitVec.eq_of_getLsbD_eq
  intro i hi
  have hbit : (BitVec.ofNat w (2^k-1)).getLsbD i = decide (i < k) := by
    rw [BitVec.getLsbD_ofNat,Nat.testBit_two_pow_sub_one]
    simp [hi]
  rw [BitVec.getLsbD_and,BitVec.getLsbD_not,hbit,BitVec.getLsbD_shiftLeft,BitVec.getLsbD_ushiftRight]
  by_cases hik : i < k
  · simp [hik]
  · simp [hi,hik,Nat.add_sub_cancel' (Nat.le_of_not_lt hik)]

theorem roundDown_toNat {a : BitVec w} (h : IsPow2 a) (v : BitVec w) :
    (roundDown v a).toNat = down v.toNat a.toNat := by
  obtain ⟨k,hk,rfl⟩ := h
  rw [roundDown_eq_shift hk,BitVec.toNat_shiftLeft,BitVec.toNat_ushiftRight,two_pow_toNat hk,
    Nat.shiftLeft_eq,Nat.shiftRight_eq_div_pow,down]
  exact Nat.mod_eq_of_lt (lt_of_le_of_lt (Nat.div_mul_le_self _ _) v.isLt)

theorem IsPow2.pos {a : BitVec w} (h : IsPow2 a) : 0 < a.toNat := by
  obtain ⟨k,hk,rfl⟩ := h
  rw [two_pow_toNat hk]
  exact Nat.two_pow_pos k

/-- Rounding up agrees with the naturals unless the addition wraps. -/
theorem roundUp_toNat {a v : BitVec w} (h : IsPow2 a) (hv : v.toNat+(a.toNat-1) < 2^w) :
    (roundUp v a).toNat = up v.toNat a.toNat := by
  change (roundDown (v+(a-1#w)) a).toNat = _
  rw [roundDown_toNat h,BitVec.toNat_add,sub_one_toNat h.pos,Nat.mod_eq_of_lt hv]
  rfl

theorem up_of_dvd {n a : ℕ} (h : 0 < a) (hd : a ∣ n) : up n a = n := by
  obtain ⟨q,rfl⟩ := hd
  unfold up
  rw [Nat.mul_add_div h,Nat.div_eq_of_lt (by omega),Nat.add_zero,Nat.mul_comm]

/-- Rounding down the distance to a multiple rounds up the distance from it. -/
theorem down_sub {n a top : ℕ} (h : 0 < a) (hd : a ∣ top) (hup : up n a ≤ top) :
    down (top-n) a = top-up n a := by
  obtain ⟨q,rfl⟩ := hd
  obtain ⟨t,ht⟩ := dvd_up n a
  have hle := le_up (n := n) h
  have hlt := up_lt_add (n := n) h
  rw [ht] at hup hle hlt ⊢
  have htq : t ≤ q := Nat.le_of_mul_le_mul_left hup h
  have hdiv : (a*q-n)/a = q-t := by
    apply Nat.div_eq_of_lt_le
    · rw [Nat.mul_comm (q-t),Nat.mul_sub]
      omega
    · rw [Nat.succ_mul,Nat.mul_comm (q-t),Nat.mul_sub]
      omega
  rw [down,hdiv,Nat.mul_comm,Nat.mul_sub]

theorem IsPow2.dvd {a : BitVec w} (h : IsPow2 a) : a.toNat ∣ 2^w := by
  obtain ⟨k,hk,rfl⟩ := h
  rw [two_pow_toNat hk]
  exact Nat.pow_dvd_pow 2 hk.le

/-- A multiple is left as it is, also the last one of the word. -/
theorem roundUp_of_dvd {a v : BitVec w} (h : IsPow2 a) (hd : a.toNat ∣ v.toNat) :
    roundUp v a = v := by
  have hlt : v.toNat+a.toNat ≤ 2^w := by
    have hpos := h.pos
    have hv := v.isLt
    obtain ⟨q,hq⟩ := h.dvd
    obtain ⟨t,ht⟩ := hd
    rw [hq,ht] at hv ⊢
    have htq : t+1 ≤ q := Nat.lt_of_mul_lt_mul_left hv
    calc a.toNat*t+a.toNat = a.toNat*(t+1) := (Nat.mul_succ _ _).symm
      _ ≤ a.toNat*q := Nat.mul_le_mul_left _ htq
  have hpos := h.pos
  apply BitVec.eq_of_toNat_eq
  rw [roundUp_toNat h (by omega),up_of_dvd hpos hd]

/-- Rounding a negated length down negates the length rounded up. -/
theorem neg_roundDown_neg_toNat {a v : BitVec w} (h : IsPow2 a)
    (hup : up v.toNat a.toNat < 2^w) : (-roundDown (-v) a).toNat = up v.toNat a.toNat := by
  have hv := v.isLt
  by_cases hzero : v.toNat = 0
  · have hup0 : up v.toNat a.toNat = 0 := by
      rw [hzero]
      exact up_of_dvd h.pos (Nat.dvd_zero _)
    have hneg : (-v).toNat = 0 := by rw [BitVec.toNat_neg,hzero,Nat.sub_zero,Nat.mod_self]
    rw [hup0,BitVec.toNat_neg,roundDown_toNat h,hneg,down,Nat.zero_div,Nat.zero_mul,Nat.sub_zero,
      Nat.mod_self]
  · have hneg : (-v).toNat = 2^w-v.toNat := by
      rw [BitVec.toNat_neg]
      exact Nat.mod_eq_of_lt (by omega)
    have hle := le_up (n := v.toNat) h.pos
    rw [BitVec.toNat_neg,roundDown_toNat h,hneg,down_sub h.pos h.dvd hup.le,
      Nat.mod_eq_of_lt (by omega)]
    omega

/-- A word and its negation have the lowest set bit in common and no other. -/
theorem and_neg_eq {v : BitVec w} {k q : ℕ} (hv : v.toNat = 2^k*(2*q+1)) :
    v &&& -v = BitVec.ofNat w (2^k) := by
  have hlt := v.isLt
  have hpos := Nat.two_pow_pos k
  have hone : 2^k ≤ v.toNat := by
    rw [hv]
    exact Nat.le_mul_of_pos_right _ (Nat.succ_pos _)
  have hneg : (-v).toNat = 2^w-(v.toNat-1+1) := by
    rw [BitVec.toNat_neg,Nat.mod_eq_of_lt (by omega),Nat.sub_add_cancel (by omega)]
  -- one less has all the bits below, and the same ones above
  have hpred : v.toNat-1 = 2^k*(2*q)+(2^k-1) := by
    rw [hv,Nat.mul_succ]
    omega
  apply BitVec.eq_of_getLsbD_eq
  intro i hi
  rw [BitVec.getLsbD_and,← BitVec.testBit_toNat,← BitVec.testBit_toNat,hneg,
    Nat.testBit_two_pow_sub_succ (by omega),hpred,hv,Nat.testBit_two_pow_mul_add _ (by omega),
    Nat.testBit_two_pow_mul,BitVec.getLsbD_ofNat,Nat.testBit_two_pow]
  rcases Nat.lt_trichotomy i k with h | h | h
  · simp [h,Nat.not_le.mpr h,h.ne']
  · subst h
    simp [hi]
  · obtain ⟨j,hj⟩ : ∃ j, i-k = j+1 := ⟨i-k-1,by omega⟩
    have hodd : (2*q+1)/2 = q := by omega
    have heven : 2*q/2 = q := by omega
    rw [if_neg (by omega),hj,Nat.testBit_succ,Nat.testBit_succ,hodd,heven]
    cases q.testBit j <;> simp [h.ne]

end WinterLily.Align
