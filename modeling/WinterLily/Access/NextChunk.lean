import WinterLily.Access.Probe
import WinterLily.Base.Stride

/-! The methods that `RawCheckedSliceIter` overrides, beside what they stand for: calls of `next`. -/
namespace WinterLily.Access
open WinterLily.Memory WinterLily.Stride

/-- What `next` returns for one element. -/
abbrev Item := Except CheckedAccessError Word

/-- `probe_checked` for `count` elements at an address. -/
def probeResult (p : Perms 64) (ty : CheckedAccessType) (size a count : Word) :
    Except CheckedAccessError Unit :=
  (probeChecked p ty size a count).2

/-- The probe that `next` makes. -/
def elementProbe (p : Perms 64) (ty : CheckedAccessType) (size : Word) : Probe CheckedAccessError :=
  fun a => probeResult p ty size a 1#64

lemma elementProbe_open (ty : CheckedAccessType) (size a : Word) :
    elementProbe (fun _ _ => none) ty size a = .ok () :=
  (probeChecked_touches _ ty size a 1#64).ok_iff.mpr fun _ _ => ⟨rfl,fun _ => rfl⟩

namespace RawCheckedSliceIter

section Methods

variable (p : Perms 64) (ty : CheckedAccessType) (size : Word)

/-- The items of a chunk of `n` elements: one probe for all of them. -/
def chunk (pos : Word) (n : Word) : List Item :=
  match probeResult p ty size pos n with
  | .ok () => (List.range n.toNat).map fun i => .ok (strideAt pos size i)
  | .error e => List.replicate n.toNat (.error e)

/-- `next_chunk::<N>`: the array, or the items there still were. The stride of the first branch is
`size_of::<usize>()`. -/
def nextChunk (N : Word) (it : RawCheckedSliceIter) :
    Except (List Item) (List Item) × RawCheckedSliceIter :=
  let pos := it.pos
  if N ≤ it.len size then
    (.ok (chunk p ty size pos N),{ it with pos := pos+N*8#64 })
  else
    let len := it.len size
    (.error (chunk p ty size pos len),{ it with pos := it.stop })

def count (it : RawCheckedSliceIter) : Word := it.len size

/-- Up to `n` calls of `next`. -/
def nexts : ℕ → RawCheckedSliceIter → List Item × RawCheckedSliceIter
  | 0,it => ([],it)
  | n+1,it =>
    match it.next size (elementProbe p ty size) with
    | (none,it) => ([],it)
    | (some item,it) => let rest := nexts n it; (item::rest.1,rest.2)

/-- `advance_by` as the trait provides it. -/
def advanceByNext (n : Word) (it : RawCheckedSliceIter) :
    Except Word Unit × RawCheckedSliceIter :=
  let passed := nexts p ty size n.toNat it
  (if passed.1.length = n.toNat then .ok () else .error (n-BitVec.ofNat 64 passed.1.length),
    passed.2)

/-- `next_chunk` as the trait provides it. -/
def nextChunkByNext (N : Word) (it : RawCheckedSliceIter) :
    Except (List Item) (List Item) × RawCheckedSliceIter :=
  let passed := nexts p ty size N.toNat it
  (if passed.1.length = N.toNat then .ok passed.1 else .error passed.1,passed.2)

/-- `next` yields exactly `k` items. -/
def Yields (it : RawCheckedSliceIter) (k : ℕ) : Prop :=
  (nexts p ty size (k+1) it).1.length = k

end Methods

/-- The bytes from the front cursor to the back one. -/
def gap (it : RawCheckedSliceIter) : ℕ := (it.stop-it.pos).toNat

/-- The item at an address. -/
def itemAt (p : Perms 64) (ty : CheckedAccessType) (size a : Word) : Item :=
  (elementProbe p ty size a).map fun _ => a

section Gap

variable {size : Word} {it : RawCheckedSliceIter}

lemma len_toNat (it : RawCheckedSliceIter) : (it.len size).toNat = it.gap/size.toNat := by
  rw [len,BitVec.toNat_udiv,gap]

lemma le_len_iff {n : Word} (it : RawCheckedSliceIter) (hs : 0 < size.toNat) :
    n ≤ it.len size ↔ n.toNat*size.toNat ≤ it.gap := by
  rw [BitVec.le_def,len_toNat,Nat.le_div_iff_mul_le hs]

lemma pos_eq_stop_iff (it : RawCheckedSliceIter) : it.pos = it.stop ↔ it.gap = 0 := by
  rw [gap,← BitVec.toNat_zero,BitVec.toNat_inj,eq_comm]
  exact sub_eq_zero.symm

/-- Moving the front cursor inside the gap. -/
lemma gap_advance (it : RawCheckedSliceIter) {k : ℕ} (h : k*size.toNat ≤ it.gap) :
    gap { it with pos := strideAt it.pos size k } = it.gap-k*size.toNat := by
  have hlt : it.gap < 2^64 := (it.stop-it.pos).isLt
  have hoff : (BitVec.ofNat 64 k*size).toNat = k*size.toNat := by
    rw [BitVec.toNat_mul,BitVec.toNat_ofNat,Nat.mod_mul_mod]
    exact Nat.mod_eq_of_lt (by omega)
  have hsub : it.stop-(it.pos+BitVec.ofNat 64 k*size) =
      (it.stop-it.pos)-BitVec.ofNat 64 k*size := (sub_sub _ _ _).symm
  unfold gap strideAt at *
  rw [hsub,BitVec.toNat_sub_of_le (by rw [BitVec.le_def,hoff]; exact h),hoff]

lemma strideAt_toNat (pos n : Word) : strideAt pos size n.toNat = pos+n*size := by
  rw [strideAt,BitVec.ofNat_toNat,BitVec.setWidth_eq]

end Gap

section Calls

variable (p : Perms 64) (ty : CheckedAccessType) {size : Word} {it : RawCheckedSliceIter}

/-- Before the back cursor `next` finds an element. -/
lemma nexts_succ (n : ℕ) (h : 0 < it.gap) :
    nexts p ty size (n+1) it =
      (itemAt p ty size it.pos::(nexts p ty size n { it with pos := it.pos+size }).1,
        (nexts p ty size n { it with pos := it.pos+size }).2) := by
  have hne : ¬ it.pos = it.stop := by
    rw [pos_eq_stop_iff]
    omega
  rw [nexts,next,if_neg hne]
  rfl

lemma nexts_of_empty (n : ℕ) (h : it.gap = 0) : nexts p ty size n it = ([],it) := by
  cases n with
  | zero => rfl
  | succ n => rw [nexts,next,if_pos ((pos_eq_stop_iff it).mpr h)]

/-- Inside the gap every call of `next` finds an element. -/
lemma nexts_add {n : ℕ} (m : ℕ) (hs : 0 < size.toNat) (h : n*size.toNat ≤ it.gap) :
    nexts p ty size (n+m) it =
      (((List.range n).map fun i => itemAt p ty size (strideAt it.pos size i))++
          (nexts p ty size m { it with pos := strideAt it.pos size n }).1,
        (nexts p ty size m { it with pos := strideAt it.pos size n }).2) := by
  induction n generalizing it with
  | zero => simp [strideAt_zero]
  | succ n ih =>
    have hstep : size.toNat+n*size.toNat ≤ it.gap := by
      rw [Nat.succ_mul] at h
      omega
    have hone : it.pos+size = strideAt it.pos size 1 := by rw [← strideAt_succ,strideAt_zero]
    have hgap : gap { it with pos := strideAt it.pos size 1 } = it.gap-1*size.toNat :=
      gap_advance it (by omega)
    have hleft : n*size.toNat ≤ gap { it with pos := it.pos+size } := by
      rw [hone,hgap]
      omega
    have hrest := ih hleft
    simp only [strideAt_base] at hrest
    rw [Nat.add_right_comm,nexts_succ p ty _ (by omega),hrest,List.range_succ_eq_map,
      List.map_cons,List.map_map,strideAt_zero]
    rfl

lemma nexts_of_le {n : ℕ} (hs : 0 < size.toNat) (h : n*size.toNat ≤ it.gap) :
    nexts p ty size n it =
      ((List.range n).map fun i => itemAt p ty size (strideAt it.pos size i),
        { it with pos := strideAt it.pos size n }) := by
  have hall := nexts_add p ty 0 hs h
  simpa only [Nat.add_zero,nexts,List.append_nil] using hall

/-- All the items of the gap, when it is a whole number of elements, and no more. -/
lemma nexts_all {n : ℕ} (hs : 0 < size.toNat) (hdvd : size.toNat ∣ it.gap)
    (hn : it.gap/size.toNat ≤ n) :
    nexts p ty size n it =
      ((List.range (it.gap/size.toNat)).map fun i => itemAt p ty size (strideAt it.pos size i),
        { it with pos := it.stop }) := by
  have hmul := Nat.div_mul_cancel hdvd
  have hgap := gap_advance it hmul.le
  rw [hmul,Nat.sub_self] at hgap
  have hstop := (pos_eq_stop_iff _).mpr hgap
  dsimp only at hstop
  obtain ⟨m,rfl⟩ := Nat.exists_eq_add_of_le hn
  rw [nexts_add p ty m hs hmul.le,nexts_of_empty p ty m hgap,List.append_nil,hstop]

lemma length_nexts_le (size : Word) (n : ℕ) (it : RawCheckedSliceIter) :
    (nexts p ty size n it).1.length ≤ n := by
  induction n generalizing it with
  | zero => simp [nexts]
  | succ n ih =>
    by_cases h : it.gap = 0
    · simp [nexts_of_empty p ty (n+1) h]
    · rw [nexts_succ p ty n (Nat.pos_of_ne_zero h),List.length_cons]
      exact Nat.succ_le_succ (ih _)

/-- A gap that is not a whole number of elements does not stop `next`. -/
lemma lt_length_nexts {n : ℕ} (hs : 0 < size.toNat) (hdvd : ¬ size.toNat ∣ it.gap)
    (hn : it.gap/size.toNat < n) : it.gap/size.toNat < (nexts p ty size n it).1.length := by
  have hle := Nat.div_mul_le_self it.gap size.toNat
  have hne : it.gap/size.toNat*size.toNat ≠ it.gap := fun h => hdvd ⟨_,by rw [Nat.mul_comm,h]⟩
  have hgap := gap_advance it hle
  obtain ⟨m,rfl⟩ := Nat.exists_eq_add_of_lt hn
  rw [Nat.add_assoc,nexts_add p ty _ hs hle,nexts_succ p ty m (by omega)]
  simp

end Calls

section Agreement

variable (p : Perms 64) (ty : CheckedAccessType) {size : Word} {it : RawCheckedSliceIter}

lemma advanceBy_eq_iff (hs : 0 < size.toNat) (n : Word) :
    it.advanceBy size n = advanceByNext p ty size n it ↔ n ≤ it.len size ∨ it.pos = it.stop := by
  unfold advanceBy advanceByNext
  dsimp only
  by_cases hle : n ≤ it.len size
  · rw [nexts_of_le p ty hs ((le_len_iff it hs).mp hle),strideAt_toNat]
    simp [hle]
  · have hlt : it.gap/size.toNat < n.toNat := by
      rw [BitVec.le_def,len_toNat] at hle
      omega
    simp only [hle,if_false,false_or]
    by_cases hgap : it.gap = 0
    · have hlen : it.len size = 0#64 := by
        apply BitVec.eq_of_toNat_eq
        rw [len_toNat,hgap,Nat.zero_div]
        rfl
      have hn : 0 ≠ n.toNat := (Nat.zero_lt_of_lt hlt).ne
      rw [nexts_of_empty p ty _ hgap,hlen]
      exact iff_of_true (by simp [hn]) ((pos_eq_stop_iff it).mpr hgap)
    · refine iff_of_false (fun h => ?_) (mt (pos_eq_stop_iff it).mp hgap)
      by_cases hdvd : size.toNat ∣ it.gap
      · rw [nexts_all p ty hs hdvd hlt.le] at h
        have hpos := congrArg (fun x => x.2.pos) h
        exact hgap ((pos_eq_stop_iff it).mp hpos)
      · have hmore := lt_length_nexts p ty hs hdvd hlt
        have hmost := length_nexts_le p ty size n.toNat it
        have hresult := congrArg Prod.fst h
        dsimp only at hresult
        split_ifs at hresult
        -- both report how far they fell short, and `next` got further
        have heq : it.len size = BitVec.ofNat 64 (nexts p ty size n.toNat it).1.length := by
          simpa only [Except.error.injEq,sub_right_inj] using hresult
        have hnat := congrArg BitVec.toNat heq
        rw [len_toNat,BitVec.toNat_ofNat,Nat.mod_eq_of_lt (hmost.trans_lt n.isLt)] at hnat
        omega

lemma chunk_length (pos n : Word) : (chunk p ty size pos n).length = n.toNat := by
  unfold chunk
  cases probeResult p ty size pos n <;> simp

/-- One probe passed for the chunk gives what a probe for each element gives. -/
lemma chunk_eq_iff {pos n : Word}
    (hacc : ∀ i < n.toNat, itemAt p ty size (strideAt pos size i) = .ok (strideAt pos size i)) :
    chunk p ty size pos n =
        ((List.range n.toNat).map fun i => itemAt p ty size (strideAt pos size i)) ↔
      ∀ a ∈ probed size pos n, Granted p ty a := by
  have hitems : ((List.range n.toNat).map fun i => itemAt p ty size (strideAt pos size i)) =
      (List.range n.toNat).map fun i => .ok (strideAt pos size i) :=
    List.map_congr_left fun i hi => hacc i (List.mem_range.mp hi)
  have hok := (probeChecked_touches p ty size pos n).ok_iff
  rw [hitems,← hok]
  unfold chunk probeResult
  cases hprobe : (probeChecked p ty size pos n).2 with
  | ok u => simp
  | error e =>
    have hn : n.toNat ≠ 0 := by
      intro h0
      have hzero : n = 0#64 := BitVec.eq_of_toNat_eq h0
      rw [hzero,probeChecked,if_pos rfl] at hprobe
      cases hprobe
    refine iff_of_false (fun h => ?_) (by simp)
    have hhead := congrArg List.head? h
    rw [List.head?_replicate,List.head?_map,List.head?_range,if_neg hn,if_neg hn] at hhead
    cases hhead

lemma gcd_eight_sub_le : ∀ s < 8, 0 < s → Nat.gcd (2^64) (8-s) ≤ s := by decide +kernel

/-- Shorter strides that stay in the address space differ from the stride of eight, also when that
one wraps. -/
lemma eq_zero_of_wrapped {n s : ℕ} (hs : 0 < s) (hlt : s < 8) (h : n*s < 2^64)
    (heq : n*8%2^64 = n*s) : n = 0 := by
  have hmod : n*(8-s)+n*s ≡ 0*(8-s)+n*s [MOD 2^64] := by
    rw [← Nat.mul_add,Nat.sub_add_cancel hlt.le,Nat.zero_mul,Nat.zero_add,Nat.ModEq,heq,
      Nat.mod_eq_of_lt h]
  have hdvd : 2^64/Nat.gcd (2^64) (8-s) ∣ n :=
    Nat.modEq_zero_iff_dvd.mp
      ((Nat.ModEq.add_right_cancel' _ hmod).cancel_right_div_gcd (Nat.two_pow_pos 64))
  by_contra hn
  have hle := Nat.le_of_dvd (Nat.pos_of_ne_zero hn) hdvd
  have hall : 2^64 ≤ n*s :=
    calc 2^64 = 2^64/Nat.gcd (2^64) (8-s)*Nat.gcd (2^64) (8-s) :=
          (Nat.div_mul_cancel (Nat.gcd_dvd_left _ _)).symm
      _ ≤ n*s := Nat.mul_le_mul hle (gcd_eight_sub_le s hlt hs)
  omega

/-- The stride of `next_chunk` is that of `next` only for elements of eight bytes. -/
lemma stride_eight_iff {pos N : Word} (hs : 0 < size.toNat) (h : N.toNat*size.toNat < 2^64) :
    pos+N*8#64 = strideAt pos size N.toNat ↔ N = 0#64 ∨ size = 8#64 := by
  rw [strideAt_toNat,add_right_inj,← BitVec.toNat_inj,← BitVec.toNat_inj,← BitVec.toNat_inj,
    BitVec.toNat_mul,BitVec.toNat_mul,Nat.mod_eq_of_lt h]
  change N.toNat*8%2^64 = N.toNat*size.toNat ↔ N.toNat = 0 ∨ size.toNat = 8
  constructor
  · intro heq
    by_cases hle : 8 ≤ size.toNat
    · have hmul := Nat.mul_le_mul_left N.toNat hle
      rw [Nat.mod_eq_of_lt (by omega)] at heq
      cases Nat.eq_zero_or_pos N.toNat with
      | inl h0 => exact .inl h0
      | inr hpos => exact .inr (Nat.eq_of_mul_eq_mul_left hpos heq).symm
    · exact .inl (eq_zero_of_wrapped hs (by omega) h heq)
  · rintro (h0 | h8)
    · simp [h0]
    · rw [h8] at h ⊢
      exact Nat.mod_eq_of_lt h

/-- `N` calls of `next` report no access error. -/
def Accessible (p : Perms 64) (ty : CheckedAccessType) (size : Word) (N : ℕ)
    (it : RawCheckedSliceIter) : Prop :=
  ∀ item ∈ (nexts p ty size N it).1, ∃ a, item = .ok a

lemma itemAt_eq_ok {a b : Word} (h : itemAt p ty size a = .ok b) :
    itemAt p ty size a = .ok a := by
  unfold itemAt at *
  cases hprobe : elementProbe p ty size a with
  | error e =>
    rw [hprobe] at h
    cases h
  | ok u => rfl

lemma accessible_items {n m : ℕ} {st : RawCheckedSliceIter} (h : Accessible p ty size m it)
    (hall : nexts p ty size m it =
      ((List.range n).map fun i => itemAt p ty size (strideAt it.pos size i),st)) :
    ∀ i < n, itemAt p ty size (strideAt it.pos size i) = .ok (strideAt it.pos size i) := by
  intro i hi
  rw [Accessible,hall] at h
  obtain ⟨a,ha⟩ := h _ (List.mem_map.mpr ⟨i,List.mem_range.mpr hi,rfl⟩)
  exact itemAt_eq_ok p ty ha

lemma nextChunk_eq_iff (hs : 0 < size.toNat) (N : Word) (hacc : Accessible p ty size N.toNat it) :
    it.nextChunk p ty size N = nextChunkByNext p ty size N it ↔
      N ≤ it.len size ∧ (N = 0#64 ∨ size = 8#64) ∧
          (∀ a ∈ probed size it.pos N, Granted p ty a) ∨
        it.len size < N ∧ size.toNat ∣ it.gap ∧
          ∀ a ∈ probed size it.pos (it.len size), Granted p ty a := by
  unfold nextChunk nextChunkByNext
  dsimp only
  by_cases hle : N ≤ it.len size
  · have hmul := (le_len_iff it hs).mp hle
    have hall := nexts_of_le p ty hs hmul
    have hlt : ¬ it.len size < N := BitVec.not_lt.mpr hle
    have hgap : it.gap < 2^64 := (it.stop-it.pos).isLt
    rw [hall,if_pos hle]
    simp only [hle,hlt,List.length_map,List.length_range,if_true,true_and,false_and,or_false,
      Prod.mk.injEq,Except.ok.injEq,RawCheckedSliceIter.mk.injEq,and_true]
    rw [chunk_eq_iff p ty (accessible_items p ty hacc hall),stride_eight_iff hs (by omega)]
    exact and_comm
  · have hlt : it.len size < N := BitVec.not_le.mp hle
    have hmany : it.gap/size.toNat < N.toNat := by
      rw [← len_toNat]
      exact hlt
    rw [if_neg hle]
    simp only [hle,hlt,true_and,false_and,false_or]
    by_cases hdvd : size.toNat ∣ it.gap
    · have hall := nexts_all p ty hs hdvd hmany.le
      have hitems := accessible_items p ty hacc hall
      rw [hall]
      simp only [hdvd,List.length_map,List.length_range,hmany.ne,if_false,true_and,
        Prod.mk.injEq,Except.error.injEq,and_true]
      rw [← len_toNat] at hitems ⊢
      exact chunk_eq_iff p ty hitems
    · have hmore := lt_length_nexts p ty hs hdvd hmany
      refine iff_of_false (fun h => ?_) fun h => hdvd h.1
      have hitems := congrArg Prod.fst h
      dsimp only at hitems
      split_ifs at hitems
      have hlen := congrArg List.length (Except.error.inj hitems)
      rw [chunk_length,len_toNat] at hlen
      omega

lemma yields_count_iff (hs : 0 < size.toNat) :
    it.Yields p ty size (it.count size).toNat ↔ size.toNat ∣ it.gap := by
  rw [Yields,count,len_toNat]
  by_cases hdvd : size.toNat ∣ it.gap
  · rw [nexts_all p ty hs hdvd (Nat.le_succ _)]
    simp [hdvd]
  · have hmore := lt_length_nexts p ty hs hdvd (Nat.lt_succ_self _)
    exact iff_of_false hmore.ne' hdvd

/-- `advance_by` stands for calls of `next` exactly while it has elements enough or none at all;
`next_chunk` exactly when it gets its elements with a stride of eight bytes, or does not get them and
the rest is whole, and the bytes that its one probe touches are granted; and `count` exactly when the
rest is a whole number of elements. -/
theorem specialised_methods_iff (n N : Word) (hs : size ≠ 0#64)
    (hacc : Accessible p ty size N.toNat it) :
    (it.advanceBy size n = advanceByNext p ty size n it ↔ n ≤ it.len size ∨ it.pos = it.stop) ∧
    (it.nextChunk p ty size N = nextChunkByNext p ty size N it ↔
      N ≤ it.len size ∧ (N = 0#64 ∨ size = 8#64) ∧
          (∀ a ∈ probed size it.pos N, Granted p ty a) ∨
        it.len size < N ∧ size.toNat ∣ (it.stop-it.pos).toNat ∧
          ∀ a ∈ probed size it.pos (it.len size), Granted p ty a) ∧
    (it.Yields p ty size (it.count size).toNat ↔ size.toNat ∣ (it.stop-it.pos).toNat) := by
  have hpos : 0 < size.toNat := Nat.pos_of_ne_zero fun h => hs (BitVec.eq_of_toNat_eq h)
  exact ⟨advanceBy_eq_iff p ty hpos n,nextChunk_eq_iff p ty hpos N hacc,yields_count_iff p ty hpos⟩

end Agreement

/-- Three words, of which two are skipped or taken at once. -/
theorem specialised_methods_iff_words :
    (advanceBy 8#64 2#64 ⟨0x1000#64,0x1018#64⟩ =
        advanceByNext (fun _ _ => none) .read 8#64 2#64 ⟨0x1000#64,0x1018#64⟩) ∧
      nextChunk (fun _ _ => none) .read 8#64 2#64 ⟨0x1000#64,0x1018#64⟩ =
        nextChunkByNext (fun _ _ => none) .read 8#64 2#64 ⟨0x1000#64,0x1018#64⟩ ∧
      Yields (fun _ _ => none) .read 8#64 ⟨0x1000#64,0x1018#64⟩ 3 := by
  have hacc : Accessible (fun _ _ => none) .read 8#64 (2#64).toNat ⟨0x1000#64,0x1018#64⟩ := by
    intro item hitem
    rw [nexts_of_le _ _ (by decide) (by decide),List.mem_map] at hitem
    obtain ⟨i,-,rfl⟩ := hitem
    exact ⟨_,by unfold itemAt; rw [elementProbe_open]; rfl⟩
  obtain ⟨hadvance,hchunk,hcount⟩ := specialised_methods_iff _ _ 2#64 2#64 (by decide) hacc
  exact ⟨hadvance.mpr (.inl (by decide)),
    hchunk.mpr (.inl ⟨by decide,.inr rfl,fun _ _ => ⟨rfl,fun _ => rfl⟩⟩),hcount.mpr (by decide)⟩

/-- Skipping four of three words leaves the iterator where it was, and a chunk of two elements of
sixteen bytes moves it by one. -/
theorem specialised_methods_differ :
    advanceBy 8#64 4#64 ⟨0x1000#64,0x1018#64⟩ = (.error 1#64,⟨0x1000#64,0x1018#64⟩) ∧
      advanceByNext (fun _ _ => none) .read 8#64 4#64 ⟨0x1000#64,0x1018#64⟩ =
        (.error 1#64,⟨0x1018#64,0x1018#64⟩) ∧
      (nextChunk (fun _ _ => none) .read 16#64 2#64 ⟨0x1000#64,0x1030#64⟩).2 =
        ⟨0x1010#64,0x1030#64⟩ ∧
      (nextChunkByNext (fun _ _ => none) .read 16#64 2#64 ⟨0x1000#64,0x1030#64⟩).2 =
        ⟨0x1020#64,0x1030#64⟩ := by
  decide +kernel

end RawCheckedSliceIter

end WinterLily.Access
