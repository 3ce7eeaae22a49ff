import WinterLily.Base.Align

/-! Words and error codes shared by the functions of `wl-ld-lilium/src/loader.rs`. The crate is
built without overflow checks, so every sum wraps. -/
namespace WinterLily.Loader

/-- `usize` and `isize` of the target; a signed value is read through `toInt`. -/
abbrev Usize := BitVec 64

/-- The errors of the loader interface that these functions return. -/
inductive Error
  | allocError
  | loadError
  | readError
  deriving DecidableEq, Repr

/-- `v & !4095`. -/
def pageDown (v : Usize) : Usize := Align.roundDown v 4096#64

/-- `(v + 4095) & !4095`. -/
def pageUp (v : Usize) : Usize := Align.roundUp v 4096#64

lemma page_pow2 : Align.IsPow2 4096#64 := ⟨12,by omega,rfl⟩

lemma pageDown_toNat (v : Usize) : (pageDown v).toNat = Align.down v.toNat 4096 :=
  Align.roundDown_toNat page_pow2 v

lemma pageUp_toNat {v : Usize} (h : v.toNat+4095 < 2^64) :
    (pageUp v).toNat = Align.up v.toNat 4096 := Align.roundUp_toNat page_pow2 h

/-- `v & 4095`. -/
lemma pageOffset_toNat (v : Usize) : (v &&& 4095#64).toNat = v.toNat%4096 := by
  rw [BitVec.toNat_and]
  exact Nat.and_two_pow_sub_one_eq_mod v.toNat 12

end WinterLily.Loader
