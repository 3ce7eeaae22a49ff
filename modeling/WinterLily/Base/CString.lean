import WinterLily.Base.Memory
import WinterLily.Base.Stack

/-! Strings that end with a NUL, and arrays of pointers to them. -/
namespace WinterLily.CString
open WinterLily.Memory WinterLily.Stack

abbrev Text := List Byte

/-- The bytes up to the first NUL, which is looked for among `fuel` bytes. -/
def readCStr (m : Mem 64) : ℕ → Word → Option Text
  | 0,_ => none
  | fuel+1,p => if m p = 0#8 then some [] else (readCStr m fuel (p+1#64)).map (m p :: ·)

/-- The string at `p`. -/
def CStr (m : Mem 64) : Word → Text → Prop
  | p,[] => m p = 0#8
  | p,b::bs => m p = b ∧ b ≠ 0#8 ∧ CStr m (p+1#64) bs

/-- The words from `a` on point to the strings of the list. -/
def Strings (m : Mem 64) : Word → List Text → Prop
  | _,[] => True
  | a,t::ts => m.word a ≠ 0#64 ∧ CStr m (m.word a) t ∧ Strings m (cell a 1) ts

instance decidableCStr (m : Mem 64) : ∀ p t, Decidable (CStr m p t)
  | p,[] => inferInstanceAs (Decidable (m p = 0#8))
  | p,b::bs =>
    have := decidableCStr m (p+1#64) bs
    inferInstanceAs (Decidable (m p = b ∧ b ≠ 0#8 ∧ CStr m (p+1#64) bs))

instance decidableStrings (m : Mem 64) : ∀ a ts, Decidable (Strings m a ts)
  | _,[] => inferInstanceAs (Decidable True)
  | a,t::ts =>
    have := decidableStrings m (cell a 1) ts
    inferInstanceAs (Decidable (m.word a ≠ 0#64 ∧ CStr m (m.word a) t ∧ Strings m (cell a 1) ts))

variable {m : Mem 64} {p a : Word} {ts us : List Text}

theorem CStr.read {t : Text} (h : CStr m p t) {fuel : ℕ} (hfuel : t.length < fuel) :
    readCStr m fuel p = some t := by
  induction t generalizing p fuel with
  | nil =>
    obtain ⟨fuel,rfl⟩ := Nat.exists_eq_add_one.mpr hfuel
    exact if_pos h
  | cons b bs ih =>
    obtain ⟨fuel,rfl⟩ := Nat.exists_eq_add_one.mpr (Nat.zero_lt_of_lt hfuel)
    obtain ⟨rfl,hne,htail⟩ := h
    rw [readCStr,if_neg hne,ih htail (Nat.lt_of_succ_lt_succ hfuel)]
    rfl

theorem strings_append :
    Strings m a (ts++us) ↔ Strings m a ts ∧ Strings m (cell a ts.length) us := by
  induction ts generalizing a with
  | nil => simp [Strings]
  | cons t ts ih =>
    rw [List.cons_append,Strings,Strings,ih,cell_cell,List.length_cons,Nat.add_comm 1,and_assoc,
      and_assoc]

end WinterLily.CString
