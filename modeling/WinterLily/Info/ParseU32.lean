import Mathlib.Data.Nat.Digits.Defs
import Mathlib.Tactic.Ring
import WinterLily.Base.Bytes

/-! `const_parse_u32` of `wl-impl/src/helpers.rs`, which the version numbers of the kernel go through,
and the numerals that it is to accept. -/
namespace WinterLily.ParseU32
open WinterLily.Bytes (Byte)

section Program

/-- The panics of `const_parse_u32`. -/
inductive Panic
  /-- "Invalid radix" -/
  | invalidRadix
  /-- "Expected a digit" -/
  | expectedDigit
  /-- "Out of Range value" -/
  | outOfRangeValue
  /-- "Out of Range digit" -/
  | outOfRangeDigit
  deriving DecidableEq, Repr

def checkedMul (a b : BitVec 32) : Option (BitVec 32) :=
  if a.toNat*b.toNat < 2^32 then some (a*b) else none

def checkedAdd (a b : BitVec 32) : Option (BitVec 32) :=
  if a.toNat+b.toNat < 2^32 then some (a+b) else none

/-- The match on the byte; `none` is its last arm. -/
def digit (b : Byte) : Option Byte :=
  if 0x30#8 ≤ b ∧ b ≤ 0x39#8 then some (b-0x30#8)
  else if 0x41#8 ≤ b ∧ b ≤ 0x5A#8 then some (b-0x41#8+10#8)
  else if 0x61#8 ≤ b ∧ b ≤ 0x7A#8 then some (b-0x61#8+10#8)
  else none

/-- The loop over the bytes that are left. -/
def parseLoop (radix : BitVec 32) : List Byte → BitVec 32 → Except Panic (BitVec 32)
  | [],val => .ok val
  | b::bs,val =>
    match digit b with
    | none => .error .expectedDigit
    | some d =>
      if d.setWidth 32 < radix then
        match (checkedMul val radix).bind fun v => checkedAdd v (d.setWidth 32) with
        | some v => parseLoop radix bs v
        | none => .error .outOfRangeValue
      else .error .outOfRangeDigit

def constParseU32 (v : List Byte) (radix : BitVec 32) : Except Panic (BitVec 32) :=
  if radix < 2#32 ∨ 36#32 < radix then .error .invalidRadix else parseLoop radix v 0#32

end Program

section Numerals

/-- The byte is a digit or a letter with this value. -/
def Digit (b : Byte) (d : ℕ) : Prop :=
  d < 10 ∧ b.toNat = 0x30+d ∨
    10 ≤ d ∧ d < 36 ∧ (b.toNat = 0x41+(d-10) ∨ b.toNat = 0x61+(d-10))

/-- The text has digits below the radix, and this positional value. -/
def Numeral (radix : ℕ) (v : List Byte) (n : ℕ) : Prop :=
  ∃ ds, List.Forall₂ Digit v ds ∧ (∀ d ∈ ds, d < radix) ∧ Nat.ofDigits radix ds.reverse = n

/-- An upper case letter becomes a lower case one. -/
def toLower (b : Byte) : Byte := if 0x41#8 ≤ b ∧ b ≤ 0x5A#8 then b+0x20#8 else b

end Numerals

section Digits

variable {b : Byte}

/-- The arms of the match are the digits and letters with their values. -/
lemma digit_eq_some_iff (b d : Byte) : digit b = some d ↔ Digit b d.toNat := by
  have hb := b.isLt
  have hd := d.isLt
  unfold digit Digit
  simp only [BitVec.le_def,BitVec.toNat_ofNat]
  split_ifs with hdigit hupper hlower
  · simp only [Option.some.injEq,← BitVec.toNat_inj,BitVec.toNat_sub,BitVec.toNat_ofNat]
    omega
  · simp only [Option.some.injEq,← BitVec.toNat_inj,BitVec.toNat_add,BitVec.toNat_sub,
      BitVec.toNat_ofNat]
    omega
  · simp only [Option.some.injEq,← BitVec.toNat_inj,BitVec.toNat_add,BitVec.toNat_sub,
      BitVec.toNat_ofNat]
    omega
  · simp only [false_iff]
    omega

lemma Digit.exists_eq_some {d : ℕ} (h : Digit b d) : ∃ x : Byte, x.toNat = d ∧ digit b = some x := by
  have hlt : d < 2^8 := by
    unfold Digit at h
    omega
  have hnat : (BitVec.ofNat 8 d).toNat = d := by
    rw [BitVec.toNat_ofNat,Nat.mod_eq_of_lt hlt]
  exact ⟨BitVec.ofNat 8 d,hnat,(digit_eq_some_iff b _).mpr (hnat.symm ▸ h)⟩

lemma not_digit_of_none (h : digit b = none) (d : ℕ) : ¬ Digit b d := by
  intro hd
  obtain ⟨x,-,hx⟩ := hd.exists_eq_some
  cases h.symm.trans hx

lemma digit_iff_of_some {x : Byte} (h : digit b = some x) (d : ℕ) : Digit b d ↔ d = x.toNat := by
  constructor
  · intro hd
    obtain ⟨y,rfl,hy⟩ := hd.exists_eq_some
    rw [Option.some.inj (hy.symm.trans h)]
  · rintro rfl
    exact (digit_eq_some_iff b x).mp h

lemma digit_toLower (b : Byte) : digit (toLower b) = digit b := by
  refine Option.ext fun d => ?_
  rw [digit_eq_some_iff,digit_eq_some_iff]
  have hb := b.isLt
  unfold Digit toLower
  simp only [BitVec.le_def,BitVec.toNat_ofNat]
  split_ifs with hupper
  · rw [BitVec.toNat_add,BitVec.toNat_ofNat]
    omega
  · rfl

end Digits

section Continued

variable {radix a n : ℕ} {b : Byte} {v : List Byte}

/-- The digits of the text after those of a number that was read before. -/
def Continued (radix a : ℕ) (v : List Byte) (n : ℕ) : Prop :=
  ∃ ds, List.Forall₂ Digit v ds ∧ (∀ d ∈ ds, d < radix) ∧
    a*radix^ds.length+Nat.ofDigits radix ds.reverse = n

lemma continued_zero_iff : Continued radix 0 v n ↔ Numeral radix v n := by
  simp only [Continued,Numeral,Nat.zero_mul,Nat.zero_add]

lemma continued_nil_iff : Continued radix a [] n ↔ a = n := by
  simp [Continued]

lemma not_continued_of_none (h : digit b = none) : ¬ Continued radix a (b::v) n := by
  rintro ⟨ds,hds,-⟩
  obtain ⟨d,_,hd,-⟩ := List.forall₂_cons_left_iff.mp hds
  exact not_digit_of_none h d hd

lemma ofDigits_reverse_cons (radix d : ℕ) (ds : List ℕ) :
    Nat.ofDigits radix (d::ds).reverse = d*radix^ds.length+Nat.ofDigits radix ds.reverse := by
  rw [List.reverse_cons,Nat.ofDigits_append,Nat.ofDigits_singleton,List.length_reverse,
    Nat.mul_comm,Nat.add_comm]

/-- The first digit is read. -/
lemma continued_cons_iff {x : Byte} (h : digit b = some x) : Continued radix a (b::v) n ↔
    x.toNat < radix ∧ Continued radix (a*radix+x.toNat) v n := by
  have hvalue : ∀ ds : List ℕ, a*radix^(x.toNat::ds).length+
      Nat.ofDigits radix (x.toNat::ds).reverse =
        (a*radix+x.toNat)*radix^ds.length+Nat.ofDigits radix ds.reverse := by
    intro ds
    rw [ofDigits_reverse_cons,List.length_cons]
    ring
  constructor
  · rintro ⟨_,hds,hlt,hn⟩
    obtain ⟨d,ds,hd,hrest,rfl⟩ := List.forall₂_cons_left_iff.mp hds
    obtain rfl := (digit_iff_of_some h d).mp hd
    rw [List.forall_mem_cons] at hlt
    exact ⟨hlt.1,ds,hrest,hlt.2,(hvalue ds).symm.trans hn⟩
  · rintro ⟨hx,ds,hrest,hlt,hn⟩
    exact ⟨x.toNat::ds,.cons ((digit_iff_of_some h _).mpr rfl) hrest,
      List.forall_mem_cons.mpr ⟨hx,hlt⟩,(hvalue ds).trans hn⟩

/-- What is read before only grows, so that a value out of range stays there. -/
lemma Continued.le (h : Continued radix a v n) (hradix : 0 < radix) : a ≤ n := by
  obtain ⟨ds,-,-,rfl⟩ := h
  calc a ≤ a*radix^ds.length := Nat.le_mul_of_pos_right a (Nat.pow_pos hradix)
    _ ≤ a*radix^ds.length+Nat.ofDigits radix ds.reverse := Nat.le_add_right _ _

end Continued

section Loop

/-- The product and the sum of a round fit exactly if the new value does. -/
lemma checked_eq (val radix d : BitVec 32) :
    ((checkedMul val radix).bind fun v => checkedAdd v d) =
      if val.toNat*radix.toNat+d.toNat < 2^32 then some (val*radix+d) else none := by
  unfold checkedMul checkedAdd
  by_cases hmul : val.toNat*radix.toNat < 2^32
  · rw [if_pos hmul,Option.bind_some,BitVec.toNat_mul,Nat.mod_eq_of_lt hmul]
  · rw [if_neg hmul,Option.bind_none,if_neg (by omega)]

lemma setWidth_toNat (x : Byte) : (x.setWidth 32).toNat = x.toNat := by
  rw [BitVec.toNat_setWidth,Nat.mod_eq_of_lt (by have := x.isLt; omega)]

lemma checked_toNat {val radix : BitVec 32} {x : Byte}
    (h : val.toNat*radix.toNat+x.toNat < 2^32) :
    (val*radix+x.setWidth 32).toNat = val.toNat*radix.toNat+x.toNat := by
  rw [BitVec.toNat_add,BitVec.toNat_mul,Nat.mod_eq_of_lt (show _*_ < 2^32 by omega),setWidth_toNat,
    Nat.mod_eq_of_lt h]

/-- From a value on, the loop returns the number that the rest of the text continues it to. -/
lemma parseLoop_eq_ok_iff {radix : BitVec 32} (hradix : 0 < radix.toNat) (v : List Byte)
    (val n : BitVec 32) :
    parseLoop radix v val = .ok n ↔ Continued radix.toNat val.toNat v n.toNat := by
  induction v generalizing val with
  | nil => rw [parseLoop,continued_nil_iff,BitVec.toNat_inj,Except.ok.injEq]
  | cons b v ih =>
    rw [parseLoop]
    cases hdigit : digit b with
    | none => exact iff_of_false nofun (not_continued_of_none hdigit)
    | some x =>
      simp only [continued_cons_iff hdigit,BitVec.lt_def,checked_eq,setWidth_toNat]
      by_cases hx : x.toNat < radix.toNat
      · rw [if_pos hx,and_iff_right hx]
        by_cases hfits : val.toNat*radix.toNat+x.toNat < 2^32
        · simp only [if_pos hfits,ih,checked_toNat hfits]
        · simp only [if_neg hfits]
          refine iff_of_false nofun fun h => hfits ?_
          exact (h.le hradix).trans_lt n.isLt
      · rw [if_neg hx]
        exact iff_of_false nofun fun h => hx h.1

lemma parseLoop_toLower (radix : BitVec 32) (v : List Byte) (val : BitVec 32) :
    parseLoop radix (v.map toLower) val = parseLoop radix v val := by
  induction v generalizing val with
  | nil => rfl
  | cons b v ih => simp only [List.map_cons,parseLoop,digit_toLower,ih]

end Loop

section Parse

variable {radix : BitVec 32}

lemma constParseU32_eq (hlow : 2 ≤ radix.toNat) (hhigh : radix.toNat ≤ 36) (v : List Byte) :
    constParseU32 v radix = parseLoop radix v 0#32 := by
  refine if_neg ?_
  rw [BitVec.lt_def,BitVec.lt_def]
  change ¬ (radix.toNat < 2 ∨ 36 < radix.toNat)
  omega

lemma constParseU32_toLower (v : List Byte) (radix : BitVec 32) :
    constParseU32 (v.map toLower) radix = constParseU32 v radix := by
  rw [constParseU32,constParseU32,parseLoop_toLower]

/-- `const_parse_u32` returns the positional value of a text of digits that are below the radix, if it
fits in 32 bits, and panics on every other text; the case of the letters makes no difference. -/
theorem const_parse_u32_iff (radix : BitVec 32) (hlow : 2 ≤ radix.toNat) (hhigh : radix.toNat ≤ 36)
    (v : List Byte) :
    (∀ n, constParseU32 v radix = .ok n ↔ Numeral radix.toNat v n.toNat) ∧
      ((∃ panic, constParseU32 v radix = .error panic) ↔
        ∀ n, Numeral radix.toNat v n → 2^32 ≤ n) ∧
      ∀ v', v'.map toLower = v.map toLower → constParseU32 v' radix = constParseU32 v radix := by
  have hok : ∀ n, constParseU32 v radix = .ok n ↔ Numeral radix.toNat v n.toNat := by
    intro n
    rw [constParseU32_eq hlow hhigh,parseLoop_eq_ok_iff (by omega)]
    exact continued_zero_iff
  refine ⟨hok,?_,fun v' h => ?_⟩
  · constructor
    · rintro ⟨panic,hpanic⟩ n hn
      by_contra hlt
      have hnat : (BitVec.ofNat 32 n).toNat = n := by
        rw [BitVec.toNat_ofNat,Nat.mod_eq_of_lt (by omega)]
      cases hpanic.symm.trans ((hok (BitVec.ofNat 32 n)).mpr (hnat.symm ▸ hn))
    · intro h
      cases hresult : constParseU32 v radix with
      | error panic => exact ⟨panic,rfl⟩
      | ok n =>
        have hle := h n.toNat ((hok n).mp hresult)
        exact absurd n.isLt (by omega)
  · rw [← constParseU32_toLower v',h,constParseU32_toLower]

/-- "fF" in base 16. -/
theorem const_parse_u32_iff_hex :
    2 ≤ (16#32).toNat ∧ (16#32).toNat ≤ 36 ∧ Numeral 16 [0x66#8,0x46#8] 255 :=
  ⟨by decide,by decide,
    ((const_parse_u32_iff 16#32 (by decide) (by decide) [0x66#8,0x46#8]).1 255#32).mp rfl⟩

end Parse

end WinterLily.ParseU32
