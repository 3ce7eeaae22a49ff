import WinterLily.Loader.SplitAscii
import WinterLily.Base.Utf8

/-! `SplitAscii` used from both ends. Each call of `next` takes the first of the segments that are
left. `next_back` takes the last one as long as there are two; of a single one it leaves the first
byte, so that it never comes to an end there. -/
namespace WinterLily.SplitAscii

/-- The end that a call takes from. -/
inductive End
  | front
  | back
  deriving DecidableEq, Repr

/-- What some calls have returned at either end, in the order of the calls, and what is left. -/
structure Ends where
  front : List (List Byte)
  back : List (List Byte)
  rest : List Byte
  deriving DecidableEq, Repr

section Calls

variable (sep : Byte)

/-- `next` or `next_back`. -/
def call : End → List Byte → Option (List Byte × List Byte)
  | .front => next sep
  | .back => nextBack sep

def Ends.push (s : List Byte) (r : Ends) : End → Ends
  | .front => { r with front := s::r.front }
  | .back => { r with back := s::r.back }

/-- A sequence of calls. -/
def calls : List End → List Byte → Ends
  | [],v => ⟨[],[],v⟩
  | e::es,v =>
    match call sep e v with
    | none => calls es v
    | some (s,rest) => (calls es rest).push s e

end Calls

variable {sep : Byte} {s v w : List Byte} {es fs : List End}

@[simp] lemma push_rest (s : List Byte) (r : Ends) (e : End) : (r.push s e).rest = r.rest := by
  cases e <;> rfl

lemma calls_cons (e : End) (es : List End) (h : call sep e v = some (s,w)) :
    calls sep (e::es) v = (calls sep es w).push s e := by
  rw [calls,h]

lemma calls_append_rest :
    (calls sep (es++fs) v).rest = (calls sep fs (calls sep es v).rest).rest := by
  induction es generalizing v with
  | nil => rfl
  | cons e es ih =>
    rw [List.cons_append,calls,calls]
    cases call sep e v with
    | none => exact ih
    | some x => simpa using ih

lemma call_nil (e : End) : call sep e [] = none := by cases e <;> rfl

/-- A text that has a separator has a last one. -/
lemma eq_append_of_mem (h : sep ∈ v) : ∃ u s, v = u++sep::s ∧ sep ∉ s := by
  obtain ⟨a,b,hv,hb⟩ := List.eq_append_cons_of_mem (List.mem_reverse.mpr h)
  refine ⟨b.reverse,a.reverse,?_,by simpa using hb⟩
  rw [← List.reverse_reverse v,hv]
  simp

lemma nextBack_append (hs : sep ∉ s) : nextBack sep (w++sep::s) = some (s,w) := by
  have hfind : find sep (w++sep::s).reverse = some s.length := by
    have hrev : (w++sep::s).reverse = s.reverse++sep::w.reverse := by simp
    rw [hrev,find_append (by simpa using hs),List.length_reverse]
  have hlen : (w++sep::s).length-s.length = w.length+1 := by
    simp only [List.length_append,List.length_cons]
    omega
  have hdrop : (w++sep::s).drop (w.length+1) = s := by
    rw [← List.drop_drop,List.drop_left]
    rfl
  rw [nextBack,if_neg (by simp),hfind]
  simp only [hlen,hdrop,Nat.add_sub_cancel,List.take_left]

lemma nextBack_last (hs : sep ∉ s) (hne : s ≠ []) : nextBack sep s = some (s,s.take 1) := by
  rw [nextBack,if_neg hne,find_eq_none (by simpa using hs)]

section Forward

lemma calls_front (n : ℕ) (h : v.length ≤ n) :
    calls sep (List.replicate n .front) v = ⟨segments sep v,[],[]⟩ := by
  induction n generalizing v with
  | zero =>
    have hv : v = [] := List.eq_nil_of_length_eq_zero (Nat.le_zero.mp h)
    rw [hv]
    rfl
  | succ n ih =>
    rw [List.replicate_succ]
    rcases text_cases sep v with rfl | ⟨hne,hv⟩ | ⟨s,w,rfl,hs⟩
    · exact ih (Nat.zero_le n)
    · rw [calls_cons .front _ (next_last hv hne),ih (v := []) (Nat.zero_le n),segments_last hv hne]
      rfl
    · have hw : w.length ≤ n := by
        rw [List.length_append,List.length_cons] at h
        omega
      rw [calls_cons .front _ (next_append hs),ih hw,segments_append hs]
      rfl

/-- The items joined again, with a separator at the end if the text has one there. -/
def joined (sep : Byte) (items : List (List Byte)) (v : List Byte) : List Byte :=
  [sep].intercalate items++if v.getLast? = some sep then [sep] else []

lemma segments_ne_nil (h : v ≠ []) : segments sep v ≠ [] := by
  rcases text_cases sep v with rfl | ⟨hne,hv⟩ | ⟨s,w,rfl,hs⟩
  · exact absurd rfl h
  · simp [segments_last hv hne]
  · simp [segments_append hs]

lemma joined_segments (sep : Byte) (v : List Byte) : joined sep (segments sep v) v = v := by
  induction v using text_induction sep with
  | nil => rfl
  | last s hne hs =>
    have hlast : s.getLast? ≠ some sep := fun h => hs (List.mem_of_getLast? h)
    rw [joined,segments_last hs hne,if_neg hlast,List.intercalate_singleton,List.append_nil]
  | cons s rest hs ih =>
    rw [joined,segments_append hs]
    by_cases hrest : rest = []
    · subst hrest
      simp [segments,segmentsLoop]
    · have hlast : (s++sep::rest).getLast? = rest.getLast? := by
        rw [List.getLast?_append_of_ne_nil s (by simp),List.getLast?_cons_of_ne_nil hrest]
      rw [List.intercalate_cons_of_ne_nil (segments_ne_nil hrest),hlast,List.append_assoc]
      rw [joined] at ih
      rw [ih]
      simp

/-- What `split_once` is to return. -/
def SplitsAtFirst (sep : Byte) (v : List Byte) : Prop :=
  if sep ∈ v then v = (splitOnce sep v).1++sep::(splitOnce sep v).2 ∧ sep ∉ (splitOnce sep v).1
  else splitOnce sep v = (v,[])

lemma splitsAtFirst (sep : Byte) (v : List Byte) : SplitsAtFirst sep v := by
  unfold SplitsAtFirst splitOnce
  rcases text_cases sep v with rfl | ⟨hne,hv⟩ | ⟨s,w,rfl,hs⟩
  · simp [next]
  · rw [if_neg hv,next_last hv hne]
    rfl
  · rw [if_pos (by simp),next_append hs]
    exact ⟨rfl,hs⟩

/-- Calling `next` until it returns `None` gives the segments between the separators, without an
empty one at the end, and `split_once` cuts at the first separator. -/
theorem forward_split (sep : Byte) (v : List Byte) :
    (∃ n items rest, calls sep (List.replicate n .front) v = ⟨items,[],rest⟩ ∧
      next sep rest = none ∧ items = withoutFinalEmpty (v.splitOn sep) ∧ (∀ s ∈ items, sep ∉ s) ∧
      joined sep items v = v) ∧ SplitsAtFirst sep v :=
  ⟨⟨v.length,segments sep v,[],calls_front _ le_rfl,rfl,segments_eq_splitOn sep v,
    fun _ hs => not_mem_of_mem_segments hs,joined_segments sep v⟩,splitsAtFirst sep v⟩

example : calls 0x2F (List.replicate 4 .front) [0x2F,0x61,0x2F,0x2F] = ⟨[[],[0x61],[]],[],[]⟩ := by
  decide

end Forward

section Backward

/-- Whatever the order of the calls, they come to an end, and the items from the front followed by
those from the back in reverse are the ones that `next` alone gives. -/
def DoubleEnded (sep : Byte) (v : List Byte) : Prop :=
  ∀ order : ℕ → End, ∃ n, next sep (calls sep ((List.range n).map order) v).rest = none ∧
    nextBack sep (calls sep ((List.range n).map order) v).rest = none ∧
    (calls sep ((List.range n).map order) v).front++
      (calls sep ((List.range n).map order) v).back.reverse = segments sep v

/-- What `rsplit_once` is to return. -/
def SplitsAtLast (sep : Byte) (v : List Byte) : Prop :=
  if sep ∈ v then v = (rsplitOnce sep v).1++sep::(rsplitOnce sep v).2 ∧ sep ∉ (rsplitOnce sep v).2
  else rsplitOnce sep v = ([],v)

lemma next_eq_none (h : next sep v = none) : v = [] := by
  unfold next at h
  by_contra hne
  rw [if_neg hne] at h
  split at h <;> cases h

/-- A text without a separator is never used up from the back. -/
lemma calls_back_stuck (n : ℕ) (hs : sep ∉ s) (hne : s ≠ []) :
    (calls sep (List.replicate n .back) s).rest ≠ [] := by
  induction n generalizing s with
  | zero => exact hne
  | succ n ih =>
    rw [List.replicate_succ,calls_cons .back _ (nextBack_last hs hne),push_rest]
    exact ih (fun h => hs (List.mem_of_mem_take h)) (by simpa using hne)

/-- A text that is used up from the back starts with a separator, and each item was after one. -/
lemma calls_back_done (n : ℕ) (h : (calls sep (List.replicate n .back) v).rest = []) :
    (calls sep (List.replicate n .back) v).front = [] ∧
      v = (calls sep (List.replicate n .back) v).back.reverse.flatMap (sep::·) ∧
      ∀ s ∈ (calls sep (List.replicate n .back) v).back, sep ∉ s := by
  induction n generalizing v with
  | zero =>
    have hv : v = [] := h
    rw [hv]
    exact ⟨rfl,rfl,by simp [calls]⟩
  | succ n ih =>
    rw [List.replicate_succ] at h ⊢
    by_cases hmem : sep ∈ v
    · obtain ⟨u,s,rfl,hs⟩ := eq_append_of_mem hmem
      have hcall : call sep .back (u++sep::s) = some (s,u) := nextBack_append hs
      rw [calls_cons .back _ hcall,push_rest] at h
      obtain ⟨hfront,hu,hitems⟩ := ih h
      rw [calls_cons .back _ hcall]
      refine ⟨hfront,?_,List.forall_mem_cons.mpr ⟨hs,hitems⟩⟩
      simp only [Ends.push,List.reverse_cons,List.flatMap_append,List.flatMap_singleton]
      rw [← hu]
    · by_cases hne : v = []
      · subst hne
        exact ih h
      · have hstuck := calls_back_stuck (n+1) hmem hne
        rw [List.replicate_succ] at hstuck
        exact absurd h hstuck

lemma splitOn_flatMap {ds : List (List Byte)} (hs : sep ∉ s) (hds : ∀ d ∈ ds, sep ∉ d) :
    (s++ds.flatMap (sep::·)).splitOn sep = s::ds := by
  induction ds generalizing s with
  | nil => rw [List.flatMap_nil,List.append_nil,List.splitOn_eq_singleton hs]
  | cons d ds ih =>
    rw [List.forall_mem_cons] at hds
    rw [List.flatMap_cons,List.cons_append,List.splitOn_append_cons_self_of_not_mem hs,
      ih hds.1 hds.2]

lemma eq_of_dropLast_cons {x : List Byte} {ds : List (List Byte)} (h : (x::ds).dropLast = ds) :
    ∀ d ∈ ds, d = x := by
  induction ds generalizing x with
  | nil => simp
  | cons d ds ih =>
    rw [List.dropLast_cons_of_ne_nil (List.cons_ne_nil d ds),List.cons.injEq] at h
    obtain ⟨rfl,htail⟩ := h
    exact List.forall_mem_cons.mpr ⟨rfl,ih htail⟩

/-- Taking only from the back gives what `next` gives if there is nothing but separators. -/
lemma all_sep_of_doubleEnded (h : DoubleEnded sep v) : ∀ b ∈ v, b = sep := by
  obtain ⟨n,hnone,-,hitems⟩ := h fun _ => .back
  have hmap : (List.range n).map (fun _ => End.back) = List.replicate n .back := by
    rw [List.map_const',List.length_range]
  rw [hmap] at hnone hitems
  obtain ⟨hfront,hv,hsep⟩ := calls_back_done n (next_eq_none hnone)
  generalize (calls sep (List.replicate n .back) v).back = back at *
  have hds : ∀ d ∈ back.reverse, sep ∉ d := fun d hd => hsep d (List.mem_reverse.mp hd)
  have hsplit := splitOn_flatMap (List.not_mem_nil (a := sep)) hds
  rw [List.nil_append,← hv] at hsplit
  rw [hfront,List.nil_append,segments_eq_splitOn,hsplit] at hitems
  unfold withoutFinalEmpty at hitems
  split_ifs at hitems
  · have hempty := eq_of_dropLast_cons hitems.symm
    intro b hb
    rw [hv,List.mem_flatMap] at hb
    obtain ⟨d,hd,hb⟩ := hb
    rw [hempty d hd] at hb
    exact List.mem_singleton.mp hb
  · have hlen := congrArg List.length hitems
    rw [List.length_cons] at hlen
    omega

lemma call_replicate (e : End) (n : ℕ) :
    call sep e (List.replicate (n+1) sep) = some ([],List.replicate n sep) := by
  cases e with
  | front => exact next_append (s := []) (by simp)
  | back =>
    rw [List.replicate_succ']
    exact nextBack_append (by simp)

/-- Each call on separators takes one of them and returns an empty item. -/
lemma calls_replicate (sep : Byte) (es : List End) :
    (calls sep es (List.replicate es.length sep)).rest = [] ∧
      (calls sep es (List.replicate es.length sep)).front++
        (calls sep es (List.replicate es.length sep)).back.reverse =
          List.replicate es.length [] := by
  induction es with
  | nil => exact ⟨rfl,rfl⟩
  | cons e es ih =>
    rw [List.length_cons,calls_cons e es (call_replicate e es.length),push_rest]
    refine ⟨ih.1,?_⟩
    cases e with
    | front =>
      simp only [Ends.push,List.cons_append,ih.2]
      rfl
    | back =>
      simp only [Ends.push,List.reverse_cons]
      rw [← List.append_assoc,ih.2]
      exact List.replicate_succ'.symm

lemma segments_replicate (sep : Byte) (n : ℕ) :
    segments sep (List.replicate n sep) = List.replicate n [] := by
  have hterm : terminated sep (List.replicate n []) = List.replicate n sep := by
    induction n with
    | zero => rfl
    | succ n ih =>
      rw [List.replicate_succ,terminated_cons,ih]
      rfl
  rw [← hterm]
  refine segments_terminated fun d hd => ?_
  rw [List.eq_of_mem_replicate hd]
  simp

lemma doubleEnded_of_all_sep (h : ∀ b ∈ v, b = sep) : DoubleEnded sep v := by
  intro order
  have hv : v = List.replicate v.length sep := List.eq_replicate_iff.mpr ⟨rfl,h⟩
  have hlen : ((List.range v.length).map order).length = v.length := by simp
  have hcalls := calls_replicate sep ((List.range v.length).map order)
  rw [hlen,← hv] at hcalls
  refine ⟨v.length,by rw [hcalls.1]; rfl,by rw [hcalls.1]; rfl,hcalls.2.trans ?_⟩
  rw [hv,segments_replicate,List.length_replicate]

lemma splitsAtLast_iff (sep : Byte) (v : List Byte) : SplitsAtLast sep v ↔ sep ∈ v ∨ v = [] := by
  unfold SplitsAtLast rsplitOnce
  by_cases hmem : sep ∈ v
  · obtain ⟨u,s,rfl,hs⟩ := eq_append_of_mem hmem
    rw [if_pos hmem,nextBack_append hs]
    exact iff_of_true ⟨rfl,hs⟩ (.inl hmem)
  · by_cases hne : v = []
    · subst hne
      simp [nextBack]
    · rw [if_neg hmem,nextBack_last hmem hne]
      simp [hmem,hne]

/-- Taking from both ends comes to an end, with the items that `next` alone gives, for the texts that
have nothing but separators; `rsplit_once` cuts right at a separator, and of a text without one it
returns the first byte as well. -/
theorem double_ended_iff (sep : Byte) (v : List Byte) :
    (DoubleEnded sep v ↔ ∀ b ∈ v, b = sep) ∧ (SplitsAtLast sep v ↔ sep ∈ v ∨ v = []) :=
  ⟨⟨all_sep_of_doubleEnded,doubleEnded_of_all_sep⟩,splitsAtLast_iff sep v⟩

/-- Of the path "a" the calls of `next_back` never end, and `rsplit_once` gives "a" twice. -/
theorem single_segment_repeats :
    (∀ n, nextBack 0x2F (calls 0x2F (List.replicate n .back) [0x61]).rest ≠ none) ∧
      ¬ DoubleEnded 0x2F [0x61] ∧ rsplitOnce 0x2F [0x61] = ([0x61],[0x61]) := by
  refine ⟨fun n => ?_,fun h => absurd (all_sep_of_doubleEnded h 0x61 (by simp)) (by decide),rfl⟩
  have hstuck : (calls 0x2F (List.replicate n .back) [0x61]).rest ≠ [] :=
    calls_back_stuck n (by decide) (by decide)
  intro hnone
  unfold nextBack at hnone
  rw [if_neg hstuck] at hnone
  split at hnone <;> cases hnone

end Backward

section Validity

/-- The separators that `new` does not panic on. -/
def Accepted (val : Byte) : Prop := ¬ 0x80 < val

instance (val : Byte) : Decidable (Accepted val) := inferInstanceAs (Decidable (¬ _))

/-- The bytes are UTF-8. -/
def Valid (v : List Byte) : Prop := Utf8.isUtf8 (v.map UInt8.toBitVec) = true

instance (v : List Byte) : Decidable (Valid v) := inferInstanceAs (Decidable (_ = true))

/-- Whatever the calls, the items are UTF-8, and so is `as_str` after them. -/
def AlwaysValid (sep : Byte) (v : List Byte) : Prop :=
  ∀ es, (∀ s ∈ (calls sep es v).front++(calls sep es v).back, Valid s) ∧ Valid (calls sep es v).rest

/-- A text begins with an ASCII byte if it is not empty. -/
def AsciiHead (s : List Byte) : Prop := ∀ b ∈ s.head?, b < 0x80

instance decidableAsciiHead : DecidablePred AsciiHead
  | [] => .isTrue (by simp [AsciiHead])
  | b::_ => decidable_of_iff (b < 0x80) (by simp [AsciiHead])

/-- The separator is ASCII or does not occur, and each segment begins with an ASCII byte. -/
def Splittable (sep : Byte) (v : List Byte) : Prop :=
  (sep < 0x80 ∨ sep ∉ v) ∧ ∀ s ∈ v.splitOn sep, AsciiHead s

instance (sep : Byte) (v : List Byte) : Decidable (Splittable sep v) :=
  inferInstanceAs (Decidable (_ ∧ _))

lemma valid_nil : Valid [] := rfl

lemma char1_iff (b : Byte) : Utf8.char1 b.toBitVec = true ↔ b < 0x80 := by
  simp only [Utf8.char1,Utf8.between,Bool.and_eq_true,decide_eq_true_eq,UInt8.lt_iff_toNat_lt]
  change 0 ≤ b.toNat ∧ b.toNat ≤ 0x7F ↔ b.toNat < 128
  omega

lemma valid_singleton (b : Byte) : Valid [b] ↔ b < 0x80 := by
  rw [← char1_iff,Valid,List.map_singleton,Utf8.isUtf8]
  cases Utf8.char1 b.toBitVec <;> simp [Utf8.isUtf8]

lemma valid_append_cons (hsep : sep < 0x80) (u s : List Byte) :
    Valid (u++sep::s) ↔ Valid u ∧ Valid s := by
  unfold Valid
  rw [List.map_append,List.map_cons,Utf8.isUtf8_append_ascii ((char1_iff sep).mpr hsep),
    Bool.and_eq_true]

/-- The byte `0x80` only stands inside a character. -/
lemma not_valid_before (h : Valid (s++0x80::w)) : ¬ Valid s := by
  intro hs
  unfold Valid at h hs
  rw [List.map_append,Utf8.isUtf8_append hs,List.map_cons,Utf8.isUtf8_cont_cons (by decide)] at h
  cases h

lemma eq_of_accepted (h : Accepted sep) (hsep : ¬ sep < 0x80) : sep = 0x80 := by
  unfold Accepted at h
  exact UInt8.le_antisymm (UInt8.not_lt.mp h) (UInt8.not_lt.mp hsep)

lemma asciiHead_singleton {b : Byte} (h : b < 0x80) : AsciiHead [b] := by
  rintro c ⟨⟩
  exact h

/-- A text that may be split gives valid items at both ends, and what is left may be split. -/
lemma call_valid {e : End} (hv : Valid v) (hsplit : Splittable sep v)
    (hcall : call sep e v = some (s,w)) : Valid s ∧ Valid w ∧ Splittable sep w := by
  obtain ⟨hsep,hheads⟩ := hsplit
  by_cases hmem : sep ∈ v
  · have hascii := hsep.resolve_right (not_not_intro hmem)
    cases e with
    | front =>
      obtain ⟨t,u,rfl,ht⟩ := List.eq_append_cons_of_mem hmem
      rw [call,next_append ht] at hcall
      cases hcall
      rw [List.splitOn_append_cons_self_of_not_mem ht,List.forall_mem_cons] at hheads
      obtain ⟨hs,hw⟩ := (valid_append_cons hascii _ _).mp hv
      exact ⟨hs,hw,.inl hascii,hheads.2⟩
    | back =>
      obtain ⟨u,t,rfl,ht⟩ := eq_append_of_mem hmem
      rw [call,nextBack_append ht] at hcall
      cases hcall
      rw [List.splitOn_append_cons_self,List.forall_mem_append] at hheads
      obtain ⟨hw,hs⟩ := (valid_append_cons hascii _ _).mp hv
      exact ⟨hs,hw,.inl hascii,hheads.1⟩
  · by_cases hne : v = []
    · rw [hne,call_nil] at hcall
      cases hcall
    · cases e with
      | front =>
        rw [call,next_last hmem hne] at hcall
        cases hcall
        exact ⟨hv,valid_nil,.inr (by simp),by simp [AsciiHead]⟩
      | back =>
        rw [call,nextBack_last hmem hne] at hcall
        cases hcall
        -- the first byte is left, which is a character of its own
        obtain ⟨b,bs,rfl⟩ := List.exists_cons_of_ne_nil hne
        rw [List.splitOn_eq_singleton hmem,List.forall_mem_singleton] at hheads
        have hb : b < 0x80 := hheads b rfl
        have hnot : sep ∉ [b] := fun h => hmem (List.mem_of_mem_take (i := 1) h)
        refine ⟨hv,(valid_singleton b).mpr hb,.inr hnot,?_⟩
        change ∀ s ∈ [b].splitOn sep, AsciiHead s
        rw [List.splitOn_eq_singleton hnot,List.forall_mem_singleton]
        exact asciiHead_singleton hb

lemma alwaysValid_of_splittable (hv : Valid v) (hsplit : Splittable sep v) : AlwaysValid sep v := by
  intro es
  induction es generalizing v with
  | nil => exact ⟨by simp [calls],hv⟩
  | cons e es ih =>
    rw [calls]
    cases hcall : call sep e v with
    | none => exact ih hv hsplit
    | some x =>
      obtain ⟨s,w⟩ := x
      obtain ⟨hs,hw,hsplit'⟩ := call_valid hv hsplit hcall
      obtain ⟨hitems,hrest⟩ := ih hw hsplit'
      rw [List.forall_mem_append] at hitems
      dsimp only
      rw [push_rest,List.forall_mem_append]
      refine ⟨?_,hrest⟩
      cases e with
      | front => exact ⟨List.forall_mem_cons.mpr ⟨hs,hitems.1⟩,hitems.2⟩
      | back => exact ⟨hitems.1,List.forall_mem_cons.mpr ⟨hs,hitems.2⟩⟩

/-- From the back, everything after a first segment can be taken off. -/
lemma exists_back_rest (s w : List Byte) :
    ∃ es, (calls sep es (s++sep::w)).rest = s := by
  induction hn : w.length using Nat.strongRecOn generalizing w with
  | _ n ih =>
    by_cases hmem : sep ∈ w
    · obtain ⟨u,t,rfl,ht⟩ := eq_append_of_mem hmem
      have hlt : u.length < n := by
        rw [← hn,List.length_append,List.length_cons]
        omega
      obtain ⟨es,hes⟩ := ih _ hlt u rfl
      refine ⟨.back::es,?_⟩
      have hassoc : s++sep::(u++sep::t) = (s++sep::u)++sep::t := by simp
      rw [hassoc,calls_cons .back es (nextBack_append ht),push_rest,hes]
    · exact ⟨[.back],by rw [calls_cons .back [] (nextBack_append hmem),push_rest]; rfl⟩

/-- Every segment can be all that is left. -/
lemma exists_rest (h : s ∈ v.splitOn sep) : ∃ es, (calls sep es v).rest = s := by
  induction v using text_induction sep with
  | nil =>
    rw [List.splitOn_nil,List.mem_singleton] at h
    exact ⟨[],h.symm⟩
  | last t hne ht =>
    rw [List.splitOn_eq_singleton ht,List.mem_singleton] at h
    exact ⟨[],h.symm⟩
  | cons t rest ht ih =>
    rw [List.splitOn_append_cons_self_of_not_mem ht,List.mem_cons] at h
    rcases h with rfl | h
    · exact exists_back_rest s rest
    · obtain ⟨es,hes⟩ := ih h
      exact ⟨.front::es,by rw [calls_cons .front es (next_append ht),push_rest,hes]⟩

lemma not_mem_of_mem_splitOn (h : s ∈ v.splitOn sep) : sep ∉ s := by
  induction v using text_induction sep with
  | nil =>
    rw [List.splitOn_nil,List.mem_singleton] at h
    simp [h]
  | last t hne ht =>
    rw [List.splitOn_eq_singleton ht,List.mem_singleton] at h
    rwa [h]
  | cons t rest ht ih =>
    rw [List.splitOn_append_cons_self_of_not_mem ht,List.mem_cons] at h
    rcases h with rfl | h
    · exact ht
    · exact ih h

lemma splittable_of_alwaysValid (hsep : Accepted sep) (hv : Valid v) (h : AlwaysValid sep v) :
    Splittable sep v := by
  refine ⟨?_,fun s hs b hb => ?_⟩
  · by_contra hnot
    rw [not_or,not_not] at hnot
    obtain rfl := eq_of_accepted hsep hnot.1
    obtain ⟨s,w,rfl,hs⟩ := List.eq_append_cons_of_mem hnot.2
    have hitems := (h [.front]).1
    rw [calls_cons .front [] (next_append hs)] at hitems
    exact not_valid_before hv (hitems s (by simp [Ends.push]))
  · have hmem : sep ∉ s := not_mem_of_mem_splitOn hs
    obtain ⟨bs,rfl⟩ : ∃ bs, s = b::bs := List.head?_eq_some_iff.mp hb
    obtain ⟨es,hes⟩ := exists_rest hs
    have hrest := (h (es++[.back])).2
    rw [calls_append_rest,hes,calls_cons .back [] (nextBack_last hmem (by simp)),push_rest] at hrest
    exact (valid_singleton b).mp hrest

/-- The items and the rest of a valid text are valid, whatever the calls, when the separator is ASCII
or does not occur, and no segment begins with a character of several bytes. -/
theorem always_valid_iff (sep : Byte) (v : List Byte) (hsep : Accepted sep) (hv : Valid v) :
    AlwaysValid sep v ↔ Splittable sep v :=
  ⟨splittable_of_alwaysValid hsep hv,alwaysValid_of_splittable hv⟩

/-- A path of two ASCII segments. -/
theorem always_valid_iff_ab :
    Accepted 0x2F ∧ Valid [0x61,0x2F,0x62] ∧ AlwaysValid 0x2F [0x61,0x2F,0x62] :=
  ⟨by decide,by decide,(always_valid_iff 0x2F [0x61,0x2F,0x62] (by decide) (by decide)).mpr
    (by decide)⟩

/-- `new` accepts `0x80`, which is half of a character; and `next_back` leaves half of one also with
an ASCII separator. -/
theorem half_character_left :
    (Accepted 0x80 ∧ Valid [0xC3,0x80] ∧ (calls 0x80 [.front] [0xC3,0x80]).front = [[0xC3]] ∧
        ¬ Valid [0xC3]) ∧
      Accepted 0x2F ∧ Valid [0xC3,0xA9] ∧ (calls 0x2F [.back] [0xC3,0xA9]).rest = [0xC3] ∧
        ¬ AlwaysValid 0x2F [0xC3,0xA9] :=
  ⟨by decide,by decide,by decide,by decide,fun h => absurd (h [.back]).2 (by decide)⟩

end Validity

end WinterLily.SplitAscii
