import WinterLily.Base.Utf8
import WinterLily.Base.Transition

/-! The byte automaton of `check_utf8` in `wl-impl/src/helpers.rs`. It rejects a character only when
the last byte of it arrives, so it also runs through a string whose last character is cut off. -/
namespace WinterLily.Access
open WinterLily.Bytes WinterLily.Utf8 WinterLily.Transition

/-- `char::from_u32`. -/
def charFromU32 (v : BitVec 32) : Option (BitVec 32) :=
  if v.toNat < 0xD800 ∨ 0xE000 ≤ v.toNat ∧ v.toNat ≤ 0x10FFFF then some v else none

/-- `char::len_utf8`. -/
def lenUtf8 (c : BitVec 32) : ℕ :=
  if c.toNat < 0x80 then 1 else if c.toNat < 0x800 then 2 else if c.toNat < 0x10000 then 3 else 4

/-- The three variables carried from byte to byte. -/
structure Decoder where
  curCharSize : ℕ
  curCharInitSize : ℕ
  curCharVal : BitVec 32
  deriving DecidableEq, Repr

/-- The bits of `v` under a mask, as a `u32`. -/
def low (v mask : Byte) : BitVec 32 := (v &&& mask).setWidth 32

/-- `(cur_char_val << 6) | (v & 0x3F)`. -/
def pushBits (val : BitVec 32) (v : Byte) : BitVec 32 := val <<< 6 ||| low v 0x3F#8

/-- The body of the inner loop; `none` is `Err(InvalidUtf8)`. -/
def feed (s : Decoder) (v : Byte) : Option Decoder :=
  if between 0x80 0xBF v then
    if s.curCharSize ≠ 0 then
      let val := pushBits s.curCharVal v
      let size := s.curCharSize-1
      if size = 0 then
        match charFromU32 val with
        | none => none
        | some c =>
          if lenUtf8 c ≠ s.curCharInitSize then none else some ⟨size,s.curCharInitSize,val⟩
      else some ⟨size,s.curCharInitSize,val⟩
    else none
  else if s.curCharSize ≠ 0 then none
  else if between 0x00 0x7F v then some s
  else if between 0xC0 0xDF v then some ⟨1,2,low v 0x1F#8⟩
  else if between 0xE0 0xEF v then some ⟨2,3,low v 0x0F#8⟩
  else if between 0xF0 0xF7 v then some ⟨3,4,low v 0x07#8⟩
  else none

/-- How many continuation bytes a first byte announces. -/
def announced (a : Byte) : ℕ :=
  if between 0xC0 0xDF a then 1
  else if between 0xE0 0xEF a then 2
  else if between 0xF0 0xF7 a then 3
  else 0

/-- The bits of the value in a first byte. -/
def leadBits (a : Byte) : BitVec 32 :=
  low a (if between 0xC0 0xDF a then 0x1F#8 else if between 0xE0 0xEF a then 0x0F#8 else 0x07#8)

/-- The bytes are the beginning of a character that announces more. -/
def CutChar : List Byte → Prop
  | [] => False
  | a::cs => cs.length < announced a ∧ ∀ c ∈ cs, isCont c = true

instance : DecidablePred CutChar
  | [] => inferInstanceAs (Decidable False)
  | _::_ => inferInstanceAs (Decidable (_ ∧ _))

/-- A well-formed string followed by a character that is cut off. -/
def Truncated (bytes : List Byte) : Prop :=
  ∃ whole cut, bytes = whole++cut ∧ isUtf8 whole = true ∧ CutChar cut

/-- The value is a scalar value whose encoding has `n` bytes. -/
def Encodes (val : BitVec 32) (n : ℕ) : Prop :=
  (val.toNat < 0xD800 ∨ 0xE000 ≤ val.toNat ∧ val.toNat ≤ 0x10FFFF) ∧ lenUtf8 val = n

section Values

lemma between_iff {lo hi : ℕ} {b : Byte} : between lo hi b = true ↔ lo ≤ b.toNat ∧ b.toNat ≤ hi := by
  simp [between]

lemma low_toNat (v : Byte) {mask : Byte} {k : ℕ} (h : mask.toNat = 2^k-1) :
    (low v mask).toNat = v.toNat % 2^k := by
  rw [low,BitVec.toNat_setWidth,BitVec.toNat_and,h,Nat.and_two_pow_sub_one_eq_mod]
  have hle := Nat.mod_le v.toNat (2^k)
  exact Nat.mod_eq_of_lt (by omega)

lemma pushBits_toNat (val : BitVec 32) (v : Byte) (h : val.toNat < 2^26) :
    (pushBits val v).toNat = val.toNat*64+v.toNat % 64 := by
  have hlow : (low v 0x3F#8).toNat = v.toNat % 2^6 := low_toNat v rfl
  have hshift : (val <<< 6).toNat = val.toNat <<< 6 := by
    rw [BitVec.toNat_shiftLeft]
    apply Nat.mod_eq_of_lt
    rw [Nat.shiftLeft_eq]
    omega
  rw [pushBits,BitVec.toNat_or,hlow,hshift,← Nat.shiftLeft_add_eq_or_of_lt (by omega),
    Nat.shiftLeft_eq]
  omega

lemma lenUtf8_eq (c : BitVec 32) : lenUtf8 c =
    if c.toNat < 0x80 then 1 else if c.toNat < 0x800 then 2 else if c.toNat < 0x10000 then 3 else 4 :=
  rfl

/-- A two-byte character is one whose value needs two bytes. -/
lemma encodes_two {a b : Byte} (ha : between 0xC0 0xDF a = true) (hb : isCont b = true) :
    Encodes (pushBits (low a 0x1F#8) b) 2 ↔ char2 a b = true := by
  have hlow : (low a 0x1F#8).toNat = a.toNat % 2^5 := low_toNat a rfl
  have hval := pushBits_toNat (low a 0x1F#8) b (by omega)
  simp only [isCont,between_iff] at ha hb
  simp only [Encodes,lenUtf8_eq,hval,hlow,char2,isCont,Bool.and_eq_true,between_iff]
  split_ifs <;> omega

lemma encodes_three {a b c : Byte} (ha : between 0xE0 0xEF a = true) (hb : isCont b = true)
    (hc : isCont c = true) :
    Encodes (pushBits (pushBits (low a 0x0F#8) b) c) 3 ↔ char3 a b c = true := by
  have hlow : (low a 0x0F#8).toNat = a.toNat % 2^4 := low_toNat a rfl
  have hval₁ := pushBits_toNat (low a 0x0F#8) b (by omega)
  have hval := pushBits_toNat (pushBits (low a 0x0F#8) b) c (by omega)
  simp only [isCont,between_iff] at ha hb hc
  simp only [Encodes,lenUtf8_eq,hval,hval₁,hlow,char3,isCont,Bool.and_eq_true,Bool.or_eq_true,
    between_iff]
  split_ifs <;> omega

lemma encodes_four {a b c d : Byte} (ha : between 0xF0 0xF7 a = true) (hb : isCont b = true)
    (hc : isCont c = true) (hd : isCont d = true) :
    Encodes (pushBits (pushBits (pushBits (low a 0x07#8) b) c) d) 4 ↔ char4 a b c d = true := by
  have hlow : (low a 0x07#8).toNat = a.toNat % 2^3 := low_toNat a rfl
  have hval₁ := pushBits_toNat (low a 0x07#8) b (by omega)
  have hval₂ := pushBits_toNat (pushBits (low a 0x07#8) b) c (by omega)
  have hval := pushBits_toNat (pushBits (pushBits (low a 0x07#8) b) c) d (by omega)
  simp only [isCont,between_iff] at ha hb hc hd
  simp only [Encodes,lenUtf8_eq,hval,hval₁,hval₂,hlow,char4,isCont,Bool.and_eq_true,
    Bool.or_eq_true,between_iff]
  split_ifs <;> omega

end Values

section Feed

variable {i : ℕ} {val : BitVec 32} {b : Byte}

lemma feed_cont (n : ℕ) (hb : isCont b = true) :
    feed ⟨n+2,i,val⟩ b = some ⟨n+1,i,pushBits val b⟩ := by
  have hb' : between 0x80 0xBF b = true := hb
  simp [feed,hb']

lemma feed_last (hb : isCont b = true) (h : Encodes (pushBits val b) i) :
    feed ⟨1,i,val⟩ b = some ⟨0,i,pushBits val b⟩ := by
  have hb' : between 0x80 0xBF b = true := hb
  simp [feed,hb',charFromU32,h.1,h.2]

lemma feed_last_inv {s : Decoder} (hb : isCont b = true) (h : feed ⟨1,i,val⟩ b = some s) :
    Encodes (pushBits val b) i ∧ s = ⟨0,i,pushBits val b⟩ := by
  have hb' : between 0x80 0xBF b = true := hb
  by_cases hval : Encodes (pushBits val b) i
  · rw [feed_last hb hval,Option.some.injEq] at h
    exact ⟨hval,h.symm⟩
  · exfalso
    unfold Encodes at hval
    simp only [feed,hb',charFromU32,if_true,ne_eq,not_false_eq_true,Nat.sub_self,one_ne_zero] at h
    split at h
    · cases h
    · next c hc =>
      split at hc
      · next hscalar =>
        cases hc
        have hlen : lenUtf8 (pushBits val b) ≠ i := fun hlen => hval ⟨hscalar,hlen⟩
        simp [hlen] at h
      · cases hc

lemma feed_notCont {s : Decoder} (hs : s.curCharSize ≠ 0) (hb : isCont b ≠ true) :
    feed s b = none := by
  have hb' : ¬ between 0x80 0xBF b = true := hb
  simp [feed,hb',hs]

end Feed

/-- In the middle of a character the automaton takes continuation bytes only: it is still waiting
for more, or the character is complete and encoded as it should be. -/
lemma run_mid {n i : ℕ} {val : BitVec 32} {bs : List Byte} {s : Decoder}
    (h : run feed ⟨n+1,i,val⟩ bs = some s) :
    (bs.length < n+1 ∧ (∀ b ∈ bs, isCont b = true) ∧ s.curCharSize ≠ 0) ∨
      ∃ cs rest, bs = cs++rest ∧ cs.length = n+1 ∧ (∀ c ∈ cs, isCont c = true) ∧
        Encodes (cs.foldl pushBits val) i ∧ run feed ⟨0,i,cs.foldl pushBits val⟩ rest = some s := by
  induction n generalizing val bs with
  | zero =>
    cases bs with
    | nil =>
      cases h
      exact .inl ⟨by simp,by simp,by simp⟩
    | cons b bs =>
      obtain ⟨t,ht,h⟩ := Option.bind_eq_some_iff.mp h
      by_cases hb : isCont b = true
      · obtain ⟨hval,rfl⟩ := feed_last_inv hb ht
        exact .inr ⟨[b],bs,rfl,rfl,by simp [hb],hval,h⟩
      · rw [feed_notCont (by simp) hb] at ht
        cases ht
  | succ n ih =>
    cases bs with
    | nil =>
      cases h
      exact .inl ⟨by simp,by simp,by simp⟩
    | cons b bs =>
      obtain ⟨t,ht,h⟩ := Option.bind_eq_some_iff.mp h
      by_cases hb : isCont b = true
      · rw [feed_cont n hb,Option.some.injEq] at ht
        subst ht
        obtain ⟨hlen,hconts,hs⟩ | ⟨cs,rest,rfl,hlen,hconts,hval,hrest⟩ := ih h
        · exact .inl ⟨by simpa using hlen,by simpa [hb] using hconts,hs⟩
        · exact .inr ⟨b::cs,rest,rfl,by simp [hlen],by simpa [hb] using hconts,hval,hrest⟩
      · rw [feed_notCont (by simp) hb] at ht
        cases ht

/-- The continuation bytes of a character that is encoded as it should be. -/
lemma run_conts {n i : ℕ} {val : BitVec 32} {cs : List Byte} (hlen : cs.length = n+1)
    (hconts : ∀ c ∈ cs, isCont c = true) (hval : Encodes (cs.foldl pushBits val) i) :
    run feed ⟨n+1,i,val⟩ cs = some ⟨0,i,cs.foldl pushBits val⟩ := by
  induction n generalizing val cs with
  | zero =>
    obtain ⟨c,rfl⟩ := List.length_eq_one_iff.mp hlen
    simp only [run_cons,feed_last (hconts c (by simp)) hval]
    rfl
  | succ n ih =>
    cases cs with
    | nil => simp at hlen
    | cons c cs =>
      simp only [run_cons,feed_cont n (hconts c (by simp)),Option.bind_some,List.foldl_cons]
      exact ih (by simpa using hlen) (fun c' hc' => hconts c' (by simp [hc'])) hval

/-- Too few continuation bytes leave the automaton waiting. -/
lemma run_cut {n i : ℕ} {val : BitVec 32} {cs : List Byte} (hlen : cs.length < n+1)
    (hconts : ∀ c ∈ cs, isCont c = true) :
    ∃ s, run feed ⟨n+1,i,val⟩ cs = some s ∧ s.curCharSize ≠ 0 := by
  induction n generalizing val cs with
  | zero =>
    obtain rfl := List.length_eq_zero_iff.mp (Nat.lt_one_iff.mp hlen)
    exact ⟨_,rfl,by simp⟩
  | succ n ih =>
    cases cs with
    | nil => exact ⟨_,rfl,by simp⟩
    | cons c cs =>
      simp only [run_cons,feed_cont n (hconts c (by simp)),Option.bind_some]
      exact ih (by simpa using hlen) fun c' hc' => hconts c' (by simp [hc'])

section Idle

variable {s t : Decoder} {a : Byte} {n : ℕ}

lemma announced_cases (h : announced a = n+1) :
    n = 0 ∧ between 0xC0 0xDF a = true ∧ leadBits a = low a 0x1F#8 ∨
      n = 1 ∧ between 0xE0 0xEF a = true ∧ leadBits a = low a 0x0F#8 ∨
      n = 2 ∧ between 0xF0 0xF7 a = true ∧ leadBits a = low a 0x07#8 := by
  unfold announced at h
  split_ifs at h with h₁ h₂ h₃
  · exact .inl ⟨by omega,h₁,by simp [leadBits,h₁]⟩
  · exact .inr (.inl ⟨by omega,h₂,by simp [leadBits,h₁,h₂]⟩)
  · exact .inr (.inr ⟨by omega,h₃,by simp [leadBits,h₁,h₂]⟩)

/-- Complete characters are the correctly encoded ones. -/
lemma encodes_iff_isChar {cs : List Byte} (ha : announced a = n+1) (hlen : cs.length = n+1)
    (hconts : ∀ c ∈ cs, isCont c = true) :
    Encodes (cs.foldl pushBits (leadBits a)) (n+2) ↔ isChar (a::cs) = true := by
  obtain ⟨rfl,ha,hbits⟩ | ⟨rfl,ha,hbits⟩ | ⟨rfl,ha,hbits⟩ := announced_cases ha
  · obtain ⟨b,rfl⟩ := List.length_eq_one_iff.mp hlen
    rw [hbits]
    exact encodes_two ha (hconts b (by simp))
  · obtain ⟨b,c,rfl⟩ := List.length_eq_two.mp hlen
    rw [hbits]
    exact encodes_three ha (hconts b (by simp)) (hconts c (by simp))
  · obtain ⟨b,c,d,rfl⟩ := List.length_eq_three.mp hlen
    rw [hbits]
    exact encodes_four ha (hconts b (by simp)) (hconts c (by simp)) (hconts d (by simp))

lemma feed_char1 (hs : s.curCharSize = 0) (ha : char1 a = true) : feed s a = some s := by
  have ha' : between 0x00 0x7F a = true := ha
  have hcont : ¬ between 0x80 0xBF a = true := by
    rw [between_iff] at ha' ⊢
    omega
  simp [feed,hs,ha',hcont]

lemma feed_lead (hs : s.curCharSize = 0) (ha : announced a = n+1) :
    feed s a = some ⟨n+1,n+2,leadBits a⟩ := by
  obtain ⟨rfl,ha,hbits⟩ | ⟨rfl,ha,hbits⟩ | ⟨rfl,ha,hbits⟩ := announced_cases ha <;>
    rw [between_iff] at ha <;>
    simp only [feed,between_iff,hs,hbits,ne_eq,not_true_eq_false,if_false] <;>
    split_ifs <;> first | rfl | omega

/-- Between characters only an ASCII byte or a first byte gets through. -/
lemma feed_idle_inv (hs : s.curCharSize = 0) (h : feed s a = some t) :
    char1 a = true ∧ t = s ∨ ∃ n, announced a = n+1 ∧ t = ⟨n+1,n+2,leadBits a⟩ := by
  by_cases h1 : char1 a = true
  · rw [feed_char1 hs h1,Option.some.injEq] at h
    exact .inl ⟨h1,h.symm⟩
  · cases ha : announced a with
    | succ n =>
      rw [feed_lead hs ha,Option.some.injEq] at h
      exact .inr ⟨n,rfl,h.symm⟩
    | zero =>
      exfalso
      have h1' : ¬ between 0x00 0x7F a = true := h1
      unfold announced at ha
      split_ifs at ha
      simp_all [feed]

/-- The parts of an encoded character. -/
lemma isChar_parts {ch : List Byte} (h : isChar ch = true) :
    (∃ a, ch = [a] ∧ char1 a = true) ∨
      ∃ a cs n, ch = a::cs ∧ announced a = n+1 ∧ cs.length = n+1 ∧ ∀ c ∈ cs, isCont c = true := by
  match ch,h with
  | [a],h => exact .inl ⟨a,rfl,h⟩
  | [a,b],h =>
    refine .inr ⟨a,[b],0,rfl,?_,rfl,?_⟩ <;>
      simp only [isChar,char2,isCont,Bool.and_eq_true,between_iff] at h
    · have : between 0xC0 0xDF a = true := between_iff.mpr (by omega)
      simp [announced,this]
    · simp only [List.mem_singleton,forall_eq,isCont,between_iff]
      omega
  | [a,b,c],h =>
    refine .inr ⟨a,[b,c],1,rfl,?_,rfl,?_⟩ <;>
      simp only [isChar,char3,isCont,Bool.and_eq_true,Bool.or_eq_true,between_iff] at h
    · simp only [announced,between_iff]
      split_ifs <;> omega
    · simp only [List.forall_mem_cons,List.not_mem_nil,false_implies,implies_true,and_true,isCont,
        between_iff]
      omega
  | [a,b,c,d],h =>
    refine .inr ⟨a,[b,c,d],2,rfl,?_,rfl,?_⟩ <;>
      simp only [isChar,char4,isCont,Bool.and_eq_true,Bool.or_eq_true,between_iff] at h
    · simp only [announced,between_iff]
      split_ifs <;> omega
    · simp only [List.forall_mem_cons,List.not_mem_nil,false_implies,implies_true,and_true,isCont,
        between_iff]
      omega

lemma run_char {ch : List Byte} (hs : s.curCharSize = 0) (h : isChar ch = true) :
    ∃ t, run feed s ch = some t ∧ t.curCharSize = 0 := by
  obtain ⟨a,rfl,ha⟩ | ⟨a,cs,n,rfl,ha,hlen,hconts⟩ := isChar_parts h
  · exact ⟨s,by simp [feed_char1 hs ha],hs⟩
  · refine ⟨⟨0,n+2,cs.foldl pushBits (leadBits a)⟩,?_,rfl⟩
    rw [run_cons,feed_lead hs ha,Option.bind_some]
    exact run_conts hlen hconts ((encodes_iff_isChar ha hlen hconts).mpr h)

/-- The automaton runs through a well-formed string and ends between characters. -/
theorem run_of_isUtf8 {bs : List Byte} (h : isUtf8 bs = true) (hs : s.curCharSize = 0) :
    ∃ t, run feed s bs = some t ∧ t.curCharSize = 0 := by
  refine isUtf8_induction (P := fun bs => ∀ s, s.curCharSize = 0 →
    ∃ t, run feed s bs = some t ∧ t.curCharSize = 0) (fun s hs => ⟨s,rfl,hs⟩) ?_ h s hs
  intro ch rest hch ih s hs
  obtain ⟨t,ht,ht0⟩ := run_char hs hch
  obtain ⟨u,hu,hu0⟩ := ih t ht0
  exact ⟨u,by rw [run_append,ht,Option.bind_some,hu],hu0⟩

/-- A character that is cut off leaves it in the middle. -/
theorem run_of_truncated {bs : List Byte} (h : Truncated bs) (hs : s.curCharSize = 0) :
    ∃ t, run feed s bs = some t ∧ t.curCharSize ≠ 0 := by
  obtain ⟨whole,cut,rfl,hwhole,hcut⟩ := h
  obtain ⟨t,ht,ht0⟩ := run_of_isUtf8 hwhole hs
  rw [run_append,ht,Option.bind_some]
  cases cut with
  | nil => exact hcut.elim
  | cons a cs =>
    obtain ⟨hlen,hconts⟩ := hcut
    obtain ⟨n,hn⟩ : ∃ n, announced a = n+1 := ⟨announced a-1,by omega⟩
    rw [run_cons,feed_lead ht0 hn,Option.bind_some]
    exact run_cut (hn ▸ hlen) hconts

/-- What the automaton runs through is well formed or cut off in its last character. -/
theorem run_idle_inv {bs : List Byte} (hs : s.curCharSize = 0) (h : run feed s bs = some t) :
    t.curCharSize = 0 ∧ isUtf8 bs = true ∨ t.curCharSize ≠ 0 ∧ Truncated bs := by
  induction hn : bs.length using Nat.strong_induction_on generalizing bs s with
  | _ n ih =>
    cases bs with
    | nil =>
      cases h
      exact .inl ⟨hs,rfl⟩
    | cons a bs =>
      obtain ⟨u,hu,hrun⟩ := Option.bind_eq_some_iff.mp h
      -- a whole character was read, and what is left is shorter
      have hnext : ∀ ch rest u, a::bs = ch++rest → isChar ch = true → u.curCharSize = 0 →
          run feed u rest = some t →
          t.curCharSize = 0 ∧ isUtf8 (a::bs) = true ∨ t.curCharSize ≠ 0 ∧ Truncated (a::bs) := by
        intro ch rest u hsplit hch hu0 hrest
        have hpos : ch ≠ [] := by
          rintro rfl
          cases hch
        have hlt : rest.length < n := by
          have hlen := congrArg List.length hsplit
          have := List.length_pos_iff.mpr hpos
          rw [List.length_append] at hlen
          omega
        rw [hsplit,isUtf8_char_append hch]
        refine (ih _ hlt hu0 hrest rfl).imp_right fun ⟨ht,whole,cut,hcut⟩ => ⟨ht,ch++whole,cut,?_⟩
        rw [hcut.1,List.append_assoc,isUtf8_char_append hch]
        exact ⟨rfl,hcut.2⟩
      obtain ⟨ha,rfl⟩ | ⟨k,ha,rfl⟩ := feed_idle_inv hs hu
      · exact hnext [a] bs u rfl ha hs hrun
      · obtain ⟨hlen,hconts,ht⟩ | ⟨cs,rest,rfl,hlen,hconts,hval,hrest⟩ := run_mid hrun
        · exact .inr ⟨ht,[],a::bs,rfl,rfl,ha ▸ hlen,hconts⟩
        · exact hnext (a::cs) rest _ rfl ((encodes_iff_isChar ha hlen hconts).mp hval) rfl hrest

end Idle

end WinterLily.Access
