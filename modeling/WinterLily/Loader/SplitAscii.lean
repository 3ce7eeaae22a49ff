import Mathlib.Data.List.Basic

/-! `SplitAscii` of `wl-ld-lilium/src/helpers.rs`: the segments of a text between the occurrences of
a byte, without an empty one at the end. -/
namespace WinterLily.SplitAscii

abbrev Byte := UInt8

section Iterator

variable (sep : Byte)

/-- `find`. -/
def find (v : List Byte) : Option ℕ := v.findIdx? (· == sep)

/-- `next`: the segment and what is left. -/
def next (v : List Byte) : Option (List Byte × List Byte) :=
  if v = [] then none
  else match find sep v with
    | some i => some (v.take i,v.drop (i+1))
    | none => some (v,v.drop v.length)

/-- `split_once`. -/
def splitOnce (v : List Byte) : List Byte × List Byte := (next sep v).getD ([],v)

/-- `next_back`, which leaves the first byte when there is no separator. -/
def nextBack (v : List Byte) : Option (List Byte × List Byte) :=
  if v = [] then none
  else match find sep v.reverse with
    | some i => some (v.drop (v.length-i),v.take (v.length-i-1))
    | none => some (v,v.take 1)

/-- `rsplit_once`. -/
def rsplitOnce (v : List Byte) : List Byte × List Byte := ((nextBack sep v).getD ([],v)).swap

/-- A `for` loop over the segments, of at most `fuel` rounds. -/
def segmentsLoop : ℕ → List Byte → List (List Byte)
  | 0,_ => []
  | fuel+1,v =>
    match next sep v with
    | none => []
    | some (s,rest) => s::segmentsLoop fuel rest

/-- All the segments; each takes at least one byte. -/
def segments (v : List Byte) : List (List Byte) := segmentsLoop sep v.length v

end Iterator

variable {sep : Byte} {s v rest : List Byte}

lemma find_append (hs : sep ∉ s) : find sep (s++sep::rest) = some s.length := by
  induction s with
  | nil => exact List.findIdx?_cons.trans (if_pos (beq_self_eq_true sep))
  | cons b s ih =>
    have hb : (b == sep) = false := by
      simp only [beq_eq_false_iff_ne]
      exact fun h => hs (by simp [h])
    have htail := ih fun h => hs (by simp [h])
    unfold find at htail ⊢
    rw [List.cons_append,List.findIdx?_cons,hb,htail]
    rfl

lemma find_eq_none (hs : sep ∉ s) : find sep s = none := by
  simp only [find,List.findIdx?_eq_none_iff,beq_eq_false_iff_ne]
  exact fun b hb h => hs (h ▸ hb)

lemma next_append (hs : sep ∉ s) : next sep (s++sep::rest) = some (s,rest) := by
  have hdrop : (s++sep::rest).drop (s.length+1) = rest := by
    rw [← List.drop_drop,List.drop_left]
    rfl
  rw [next,if_neg (by simp),find_append hs]
  simp only [List.take_left,hdrop]

lemma next_last (hs : sep ∉ s) (hne : s ≠ []) : next sep s = some (s,[]) := by
  rw [next,if_neg hne,find_eq_none hs]
  simp only [List.drop_length]

/-- A text is empty, a last segment, or a segment with a separator and more after it. -/
lemma text_cases (sep : Byte) (v : List Byte) :
    v = [] ∨ (v ≠ [] ∧ sep ∉ v) ∨ ∃ s rest, v = s++sep::rest ∧ sep ∉ s := by
  by_cases hmem : sep ∈ v
  · exact .inr (.inr (List.eq_append_cons_of_mem hmem))
  · by_cases hne : v = []
    · exact .inl hne
    · exact .inr (.inl ⟨hne,hmem⟩)

/-- Induction along the separators. -/
theorem text_induction {P : List Byte → Prop} (sep : Byte) (nil : P [])
    (last : ∀ s, s ≠ [] → sep ∉ s → P s)
    (cons : ∀ s rest, sep ∉ s → P rest → P (s++sep::rest)) (v : List Byte) : P v := by
  induction hn : v.length using Nat.strongRecOn generalizing v with
  | _ n ih =>
    rcases text_cases sep v with rfl | ⟨hne,hmem⟩ | ⟨s,rest,rfl,hs⟩
    · exact nil
    · exact last v hne hmem
    · have hlt : rest.length < n := by
        rw [← hn,List.length_append,List.length_cons]
        omega
      exact cons s rest hs (ih _ hlt rest rfl)

lemma segmentsLoop_nil (fuel : ℕ) : segmentsLoop sep fuel [] = [] := by
  cases fuel <;> rfl

lemma length_of_next (h : next sep v = some (s,rest)) : rest.length < v.length := by
  rcases text_cases sep v with rfl | ⟨hne,hmem⟩ | ⟨t,u,rfl,ht⟩
  · cases h
  · rw [next_last hmem hne] at h
    cases h
    exact List.length_pos_iff.mpr hne
  · rw [next_append ht] at h
    cases h
    simp only [List.length_append,List.length_cons]
    omega

/-- As many rounds as there are bytes are enough. -/
lemma segmentsLoop_congr {f g : ℕ} (hf : v.length ≤ f) (hg : v.length ≤ g) :
    segmentsLoop sep f v = segmentsLoop sep g v := by
  induction f generalizing g v with
  | zero =>
    have hv : v = [] := List.eq_nil_of_length_eq_zero (Nat.le_zero.mp hf)
    rw [hv,segmentsLoop_nil,segmentsLoop_nil]
  | succ f ih =>
    cases g with
    | zero =>
      have hv : v = [] := List.eq_nil_of_length_eq_zero (Nat.le_zero.mp hg)
      rw [hv,segmentsLoop_nil,segmentsLoop_nil]
    | succ g =>
      rw [segmentsLoop,segmentsLoop]
      cases h : next sep v with
      | none => rfl
      | some x =>
        have hlt := length_of_next h
        exact congrArg (x.1::·) (ih (by omega) (by omega))

lemma segments_append (hs : sep ∉ s) : segments sep (s++sep::rest) = s::segments sep rest := by
  rw [segments,segments,List.length_append,List.length_cons,← Nat.add_assoc,segmentsLoop,
    next_append hs]
  exact congrArg (s::·) (segmentsLoop_congr (Nat.le_add_left _ _) (Nat.le_refl _))

lemma segments_last (hs : sep ∉ s) (hne : s ≠ []) : segments sep s = [s] := by
  obtain ⟨n,hn⟩ := Nat.exists_eq_add_one.mpr (List.length_pos_iff.mpr hne)
  rw [segments,hn,segmentsLoop,next_last hs hne]
  exact congrArg (s::·) (segmentsLoop_nil n)

/-- The text with each of the segments ended by a separator. -/
def terminated (sep : Byte) (ds : List (List Byte)) : List Byte := ds.flatMap (·++[sep])

lemma terminated_cons (d : List Byte) (ds : List (List Byte)) :
    terminated sep (d::ds) = d++sep::terminated sep ds := by
  simp [terminated]

lemma terminated_append (ds es : List (List Byte)) :
    terminated sep (ds++es) = terminated sep ds++terminated sep es := List.flatMap_append

/-- What was written with separators reads back. -/
theorem segments_terminated {ds : List (List Byte)} (h : ∀ d ∈ ds, sep ∉ d) :
    segments sep (terminated sep ds) = ds := by
  induction ds with
  | nil => rfl
  | cons d ds ih =>
    rw [terminated_cons,segments_append (h d (by simp)),ih fun e he => h e (by simp [he])]

/-- A list without its last element if that is empty. -/
def withoutFinalEmpty (ds : List (List Byte)) : List (List Byte) :=
  if ds.getLast? = some [] then ds.dropLast else ds

lemma withoutFinalEmpty_cons {ds : List (List Byte)} (hds : ds ≠ []) (d : List Byte) :
    withoutFinalEmpty (d::ds) = d::withoutFinalEmpty ds := by
  have hlast : (d::ds).getLast? = ds.getLast? := List.getLast?_cons_of_ne_nil hds
  have hdrop : (d::ds).dropLast = d::ds.dropLast := List.dropLast_cons_of_ne_nil hds
  unfold withoutFinalEmpty
  rw [hlast,hdrop]
  split_ifs <;> rfl

/-- The segments are those between the separators, without an empty one at the end. -/
theorem segments_eq_splitOn (sep : Byte) (v : List Byte) :
    segments sep v = withoutFinalEmpty (v.splitOn sep) := by
  induction v using text_induction sep with
  | nil => rfl
  | last s hne hs =>
    rw [segments_last hs hne,List.splitOn_eq_singleton hs]
    exact (if_neg (by simpa using hne)).symm
  | cons s rest hs ih =>
    rw [segments_append hs,ih,List.splitOn_append_cons_self_of_not_mem hs,
      withoutFinalEmpty_cons (List.splitOn_ne_nil sep rest)]

/-- A text that ends in a separator is its segments, each ended by one. -/
lemma terminated_segments (h : v ≠ [] → v.getLast? = some sep) :
    terminated sep (segments sep v) = v := by
  induction v using text_induction sep with
  | nil => rfl
  | last s hne hs => exact absurd (List.mem_of_getLast? (h hne)) hs
  | cons s rest hs ih =>
    rw [segments_append hs,terminated_cons,ih]
    intro hrest
    have hlast := h (by simp)
    rwa [List.getLast?_append_of_ne_nil s (by simp),List.getLast?_cons_of_ne_nil hrest] at hlast

lemma not_mem_of_mem_segments (hs : s ∈ segments sep v) : sep ∉ s := by
  induction v using text_induction sep with
  | nil => cases hs
  | last t hne ht =>
    rw [segments_last ht hne,List.mem_singleton] at hs
    rwa [hs]
  | cons t rest ht ih =>
    rw [segments_append ht,List.mem_cons] at hs
    rcases hs with rfl | hs
    · exact ht
    · exact ih hs

lemma subset_of_mem_segments (hs : s ∈ segments sep v) : s ⊆ v := by
  induction v using text_induction sep with
  | nil => cases hs
  | last t hne ht =>
    rw [segments_last ht hne,List.mem_singleton] at hs
    rw [hs]
    exact List.Subset.refl t
  | cons t rest ht ih =>
    rw [segments_append ht,List.mem_cons] at hs
    rcases hs with rfl | hs
    · exact List.subset_append_left s _
    · intro b hb
      exact List.mem_append_right t (List.mem_cons_of_mem sep (ih hs hb))

/-- `split_once` cuts before the first separator. -/
lemma splitOnce_fst (sep : Byte) (v : List Byte) :
    (splitOnce sep v).1 = v.takeWhile (· ≠ sep) := by
  have htake : ∀ {s : List Byte}, sep ∉ s → ∀ b ∈ s, decide (b ≠ sep) = true :=
    fun hs b hb => decide_eq_true fun h => hs (h ▸ hb)
  rcases text_cases sep v with rfl | ⟨hne,hmem⟩ | ⟨s,rest,rfl,hs⟩
  · rfl
  · rw [splitOnce,next_last hmem hne]
    have hself : (v++[]).takeWhile (· ≠ sep) = v++[] := List.takeWhile_append_of_pos (htake hmem)
    rw [List.append_nil] at hself
    exact hself.symm
  · rw [splitOnce,next_append hs,List.takeWhile_append_of_pos (htake hs)]
    simp

end WinterLily.SplitAscii
