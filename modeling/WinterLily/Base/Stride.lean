import Mathlib.Data.BitVec
import Mathlib.Data.Nat.ModEq

/-! Stepping through machine words with a fixed stride. The multiples of a stride repeat after
`period` steps, so a cursor that is compared with its end only for equality sees a count modulo that
period. -/
namespace WinterLily.Stride

variable {w : ℕ}

/-- The number of different multiples of `size`. -/
def period (size : BitVec w) : ℕ := 2^w/Nat.gcd (2^w) size.toNat

/-- The word `k` steps from `base`. -/
def strideAt (base size : BitVec w) (k : ℕ) : BitVec w := base+BitVec.ofNat w k*size

theorem period_pos (size : BitVec w) : 0 < period size :=
  Nat.div_pos (Nat.gcd_le_left _ (Nat.two_pow_pos w)) (Nat.gcd_pos_of_pos_left _ (Nat.two_pow_pos w))

/-- Steps that do not go round are fewer than the period. -/
theorem lt_period {size : BitVec w} {n : ℕ} (hs : size ≠ 0#w) (h : n*size.toNat < 2^w) :
    n < period size := by
  have hpos : 0 < size.toNat := Nat.pos_of_ne_zero fun h0 => hs (BitVec.eq_of_toNat_eq (by simpa))
  have hgcd : Nat.gcd (2^w) size.toNat ≤ size.toNat := Nat.gcd_le_right _ hpos
  have hdiv : period size*Nat.gcd (2^w) size.toNat = 2^w :=
    Nat.div_mul_cancel (Nat.gcd_dvd_left _ _)
  by_contra hge
  have hmul := Nat.mul_le_mul (Nat.le_of_not_lt hge) hgcd
  omega

theorem strideAt_zero (base size : BitVec w) : strideAt base size 0 = base := by
  simp [strideAt]

theorem strideAt_succ (base size : BitVec w) (k : ℕ) :
    strideAt base size k+size = strideAt base size (k+1) := by
  rw [strideAt,strideAt,BitVec.ofNat_add,BitVec.add_mul,BitVec.add_assoc]
  simp

theorem strideAt_base (base size : BitVec w) (k : ℕ) :
    strideAt (base+size) size k = strideAt base size (k+1) := by
  rw [← strideAt_succ,strideAt,strideAt,BitVec.add_assoc,BitVec.add_assoc,
    BitVec.add_comm size]

theorem strideAt_add (base size : BitVec w) (k l : ℕ) :
    strideAt base size k+BitVec.ofNat w l*size = strideAt base size (k+l) := by
  rw [strideAt,strideAt,BitVec.ofNat_add,BitVec.add_mul,BitVec.add_assoc]

/-- Two multiples agree when their factors do modulo the period. -/
theorem strideAt_eq_iff (base size : BitVec w) (k l : ℕ) :
    strideAt base size k = strideAt base size l ↔ k ≡ l [MOD period size] := by
  have hmod : strideAt base size k = strideAt base size l ↔
      k*size.toNat ≡ l*size.toNat [MOD 2^w] := by
    rw [strideAt,strideAt,add_right_inj,← BitVec.toNat_inj,BitVec.toNat_mul,BitVec.toNat_mul]
    simp [Nat.ModEq]
  rw [hmod]
  constructor
  · exact Nat.ModEq.cancel_right_div_gcd (Nat.two_pow_pos w)
  · intro h
    obtain ⟨t,ht⟩ := Nat.gcd_dvd_right (2^w) size.toNat
    refine (h.mul_right' size.toNat).of_dvd ⟨t,?_⟩
    calc period size*size.toNat = period size*(Nat.gcd (2^w) size.toNat*t) := by rw [← ht]
      _ = period size*Nat.gcd (2^w) size.toNat*t := (Nat.mul_assoc _ _ _).symm
      _ = 2^w*t := by rw [period,Nat.div_mul_cancel (Nat.gcd_dvd_left _ _)]

/-- Below the period the steps are told apart. -/
theorem strideAt_inj {base size : BitVec w} {k l : ℕ} (hk : k < period size)
    (hl : l < period size) : strideAt base size k = strideAt base size l ↔ k = l := by
  rw [strideAt_eq_iff]
  exact ⟨fun h => h.eq_of_lt_of_lt hk hl,fun h => h ▸ rfl⟩

end WinterLily.Stride
