import WinterLily.Base.Bytes

/-! Well-formed UTF-8: shortest encodings of scalar values, nothing left over. -/
namespace WinterLily.Utf8
open WinterLily.Bytes

def between (lo hi : ℕ) (b : Byte) : Bool := lo ≤ b.toNat && b.toNat ≤ hi

/-- A continuation byte. -/
def isCont (b : Byte) : Bool := between 0x80 0xBF b

def char1 (a : Byte) : Bool := between 0x00 0x7F a

def char2 (a b : Byte) : Bool := between 0xC2 0xDF a && isCont b

def char3 (a b c : Byte) : Bool :=
  (between 0xE0 0xE0 a && between 0xA0 0xBF b || between 0xE1 0xEC a && isCont b ||
    between 0xED 0xED a && between 0x80 0x9F b || between 0xEE 0xEF a && isCont b) && isCont c

def char4 (a b c d : Byte) : Bool :=
  (between 0xF0 0xF0 a && between 0x90 0xBF b || between 0xF1 0xF3 a && isCont b ||
    between 0xF4 0xF4 a && between 0x80 0x8F b) && isCont c && isCont d

/-- The bytes are a sequence of encoded characters. -/
def isUtf8 : List Byte → Bool
  | [] => true
  | a::bs =>
    if char1 a then isUtf8 bs
    else
      match bs with
      | [] => false
      | b::bs =>
        if char2 a b then isUtf8 bs
        else
          match bs with
          | [] => false
          | c::bs =>
            if char3 a b c then isUtf8 bs
            else
              match bs with
              | [] => false
              | d::bs => if char4 a b c d then isUtf8 bs else false

/-- The bytes of one encoded character. -/
def isChar : List Byte → Bool
  | [a] => char1 a
  | [a,b] => char2 a b
  | [a,b,c] => char3 a b c
  | [a,b,c,d] => char4 a b c d
  | _ => false

/-- A string slice: its bytes are UTF-8 by construction. -/
abbrev Str := { bs : List Byte // isUtf8 bs = true }

/-- `from_utf8`. -/
def fromUtf8 (bs : List Byte) : Option Str :=
  if h : isUtf8 bs = true then some ⟨bs,h⟩ else none

@[simp] lemma fromUtf8_str (s : Str) : fromUtf8 s.1 = some s := dif_pos s.2

section Bounds

variable {a b c d : Byte}

lemma char1_le (h : char1 a = true) : a.toNat ≤ 0xF4 := by
  simp only [char1,between,Bool.and_eq_true,decide_eq_true_eq] at h
  omega

lemma char2_le (h : char2 a b = true) : a.toNat ≤ 0xF4 ∧ b.toNat ≤ 0xF4 := by
  simp only [char2,isCont,between,Bool.and_eq_true,decide_eq_true_eq] at h
  omega

lemma char3_le (h : char3 a b c = true) :
    a.toNat ≤ 0xF4 ∧ b.toNat ≤ 0xF4 ∧ c.toNat ≤ 0xF4 := by
  simp only [char3,isCont,between,Bool.and_eq_true,Bool.or_eq_true,decide_eq_true_eq] at h
  omega

lemma char4_le (h : char4 a b c d = true) :
    a.toNat ≤ 0xF4 ∧ b.toNat ≤ 0xF4 ∧ c.toNat ≤ 0xF4 ∧ d.toNat ≤ 0xF4 := by
  simp only [char4,isCont,between,Bool.and_eq_true,Bool.or_eq_true,decide_eq_true_eq] at h
  omega

end Bounds

section Characters

variable {a b c d : Byte}

lemma not_char1_of_char2 (h : char2 a b = true) : char1 a = false := by
  simp only [char2,between,Bool.and_eq_true,decide_eq_true_eq] at h
  simp [char1,between]
  omega

lemma not_char_of_char3 (h : char3 a b c = true) : char1 a = false ∧ char2 a b = false := by
  simp only [char3,between,Bool.and_eq_true,Bool.or_eq_true,decide_eq_true_eq] at h
  simp [char1,char2,between]
  omega

lemma not_char_of_char4 (h : char4 a b c d = true) :
    char1 a = false ∧ char2 a b = false ∧ char3 a b c = false := by
  simp only [char4,between,Bool.and_eq_true,Bool.or_eq_true,decide_eq_true_eq] at h
  simp [char1,char2,char3,between]
  omega

/-- A character at the front can be taken off. -/
theorem isUtf8_char_append {ch rest : List Byte} (h : isChar ch = true) :
    isUtf8 (ch++rest) = isUtf8 rest := by
  match ch,h with
  | [a],h =>
    have ha : char1 a = true := h
    rw [List.cons_append,isUtf8.eq_def]
    simp [ha]
  | [a,b],h =>
    have hb : char2 a b = true := h
    rw [List.cons_append,isUtf8.eq_def]
    simp [not_char1_of_char2 hb,hb]
  | [a,b,c],h =>
    have hc : char3 a b c = true := h
    rw [List.cons_append,isUtf8.eq_def]
    simp [not_char_of_char3 hc,hc]
  | [a,b,c,d],h =>
    have hd : char4 a b c d = true := h
    rw [List.cons_append,isUtf8.eq_def]
    simp [not_char_of_char4 hd,hd]

/-- Induction over the characters of a well-formed string. -/
theorem isUtf8_induction {P : List Byte → Prop} (hnil : P [])
    (hchar : ∀ ch rest, isChar ch = true → P rest → P (ch++rest)) {bs : List Byte}
    (h : isUtf8 bs = true) : P bs := by
  fun_induction isUtf8 bs with
  | case1 => exact hnil
  | case2 a bs ha ih => exact hchar [a] bs ha (ih h)
  | case3 => cases h
  | case4 a ha b bs hb ih => exact hchar [a,b] bs hb (ih h)
  | case5 => cases h
  | case6 a ha b hb c bs hc ih => exact hchar [a,b,c] bs hc (ih h)
  | case7 => cases h
  | case8 a ha b hb c hc d bs hd ih => exact hchar [a,b,c,d] bs hd (ih h)
  | case9 => cases h

theorem isUtf8_append {bs rest : List Byte} (h : isUtf8 bs = true) :
    isUtf8 (bs++rest) = isUtf8 rest := by
  refine isUtf8_induction (P := fun bs => isUtf8 (bs++rest) = isUtf8 rest) rfl ?_ h
  intro ch bs hch ih
  rw [List.append_assoc,isUtf8_char_append hch,ih]

/-- A character does not begin with a continuation byte. -/
theorem isUtf8_cont_cons {a : Byte} (h : isCont a = true) (bs : List Byte) :
    isUtf8 (a::bs) = false := by
  simp only [isCont,between,Bool.and_eq_true,decide_eq_true_eq] at h
  have h1 : char1 a = false := by
    simp [char1,between]
    omega
  have h2 : ∀ b, char2 a b = false := by
    intro b
    simp [char2,between]
    omega
  have h3 : ∀ b c, char3 a b c = false := by
    intro b c
    simp [char3,between]
    omega
  have h4 : ∀ b c d, char4 a b c d = false := by
    intro b c d
    simp [char4,between]
    omega
  match bs with
  | [] => simp [isUtf8,h1]
  | [b] => simp [isUtf8,h1,h2]
  | [b,c] => simp [isUtf8,h1,h2,h3]
  | b::c::d::bs => simp [isUtf8,h1,h2,h3,h4]

/-- An ASCII byte stands for itself only. -/
lemma not_char_of_char1 (h : char1 c = true) :
    (∀ a, char2 a c = false) ∧ (∀ a b, char3 a c b = false ∧ char3 a b c = false) ∧
      ∀ a b d, char4 a c b d = false ∧ char4 a b c d = false ∧ char4 a b d c = false := by
  simp only [char1,between,Bool.and_eq_true,decide_eq_true_eq] at h
  refine ⟨fun a => ?_,fun a b => ⟨?_,?_⟩,fun a b d => ⟨?_,?_,?_⟩⟩
  all_goals
    simp [char2,char3,char4,isCont,between]
    omega

/-- A text is well formed if both parts around an ASCII byte are. -/
theorem isUtf8_append_ascii (h : char1 c = true) (bs rest : List Byte) :
    isUtf8 (bs++c::rest) = (isUtf8 bs && isUtf8 rest) := by
  obtain ⟨h2,h3,h4⟩ := not_char_of_char1 h
  fun_induction isUtf8 bs with
  | case1 => simp [isUtf8.eq_def (c::rest),h]
  | case2 a bs ha ih =>
    rw [List.cons_append,isUtf8.eq_def]
    simpa [ha] using ih
  | case3 a ha =>
    match rest with
    | [] => simp [isUtf8,ha,h2]
    | [d] => simp [isUtf8,ha,h2,h3]
    | d::e::rest => simp [isUtf8,ha,h2,h3,h4]
  | case4 a ha b bs hb ih =>
    rw [List.cons_append,List.cons_append,isUtf8.eq_def]
    simpa [ha,hb] using ih
  | case5 a ha b hb =>
    match rest with
    | [] => simp [isUtf8,ha,hb,h3]
    | d::rest => simp [isUtf8,ha,hb,h3,h4]
  | case6 a ha b hb d bs hd ih =>
    rw [List.cons_append,List.cons_append,List.cons_append,isUtf8.eq_def]
    simpa [ha,hb,hd] using ih
  | case7 a ha b hb d hd => simp [isUtf8,ha,hb,hd,h4]
  | case8 a ha b hb d hd e bs he ih =>
    rw [List.cons_append,List.cons_append,List.cons_append,List.cons_append,isUtf8.eq_def]
    simpa [ha,hb,hd,he] using ih
  | case9 a ha b hb d hd e bs he => simp [isUtf8,ha,hb,hd,he]

end Characters

section Encoding

/-- The bytes of a character. -/
def encodeChar (c : Char) : List Byte := (String.utf8EncodeChar c).map UInt8.toBitVec

def encode (cs : List Char) : List Byte := cs.flatMap encodeChar

lemma encode_concat (cs : List Char) (c : Char) : encode (cs++[c]) = encode cs++encodeChar c := by
  simp [encode]

lemma length_encodeChar (c : Char) : (encodeChar c).length = c.utf8Size := by
  rw [encodeChar,List.length_map,String.length_utf8EncodeChar]

lemma ofNat_byte {n : ℕ} (h : n < 256) : (UInt8.ofNat n).toBitVec.toNat = n := by
  change n % 2^8 = n
  exact Nat.mod_eq_of_lt h

lemma isChar_encodeChar (c : Char) : isChar (encodeChar c) = true := by
  have hvalid : c.val.toNat < 0xD800 ∨ 0xDFFF < c.val.toNat ∧ c.val.toNat < 0x110000 := c.valid
  unfold encodeChar String.utf8EncodeChar
  extract_lets v
  change v < 0xD800 ∨ 0xDFFF < v ∧ v < 0x110000 at hvalid
  split_ifs
  all_goals
    simp only [List.map_cons,List.map_nil,isChar,char1,char2,char3,char4,isCont,between,
      Bool.and_eq_true,Bool.or_eq_true,decide_eq_true_eq]
    repeat rw [ofNat_byte (by omega)]
    omega

/-- What the characters are encoded as is well formed. -/
theorem isUtf8_encode (cs : List Char) : isUtf8 (encode cs) = true := by
  induction cs with
  | nil => rfl
  | cons c cs ih =>
    rw [encode,List.flatMap_cons,isUtf8_char_append (isChar_encodeChar c)]
    exact ih

/-- A character of several bytes is not well formed without its last one. -/
theorem isUtf8_dropLast {ch : List Byte} (h : isChar ch = true) (hlen : 1 < ch.length) :
    isUtf8 ch.dropLast = false := by
  match ch,h with
  | [a],_ => exact absurd hlen (Nat.lt_irrefl 1)
  | [a,b],h =>
    change isUtf8 [a] = false
    rw [isUtf8.eq_def]
    simp [not_char1_of_char2 h]
  | [a,b,c],h =>
    change isUtf8 [a,b] = false
    rw [isUtf8.eq_def]
    simp [not_char_of_char3 h]
  | [a,b,c,d],h =>
    change isUtf8 [a,b,c] = false
    rw [isUtf8.eq_def]
    simp [not_char_of_char4 h]

end Encoding

/-- No byte of a well-formed string is above `0xF4`. -/
theorem isUtf8_le {bs : List Byte} (h : isUtf8 bs = true) : ∀ x ∈ bs, x.toNat ≤ 0xF4 := by
  fun_induction isUtf8 bs with
  | case1 => simp
  | case2 a bs ha ih => simpa [char1_le ha] using ih h
  | case3 => cases h
  | case4 a ha b bs hb ih => simpa [char2_le hb] using ih h
  | case5 => cases h
  | case6 a ha b hb c bs hc ih => simpa [char3_le hc] using ih h
  | case7 => cases h
  | case8 a ha b hb c hc d bs hd ih => simpa [char4_le hd] using ih h
  | case9 => cases h

end WinterLily.Utf8
