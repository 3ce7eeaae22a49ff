import WinterLily.Base.Memory

/-! The checked slice iterators of `helpers.rs`: two cursors that move towards each other in steps of
the element size. A probe reports whether the element may be read; the cursors move either way. -/
namespace WinterLily.Access
open WinterLily.Memory

/-- `KCSlice<T>` and `KSlice<T>`. -/
structure KSlice where
  arrPtr : BitVec 64
  len : BitVec 64
  deriving DecidableEq, Repr

/-- `RawCheckedSliceIter<T, Ty>`; the end cursor is `stop`. -/
structure RawCheckedSliceIter where
  pos : BitVec 64
  stop : BitVec 64
  deriving DecidableEq, Repr

/-- What `probe_checked` answers for one element at an address. -/
abbrev Probe (ε : Type*) := BitVec 64 → Except ε Unit

namespace RawCheckedSliceIter

variable {ε : Type*} (size : BitVec 64)

/-- `size` is `size_of::<T>()` throughout. -/
def newUnchecked (base len : BitVec 64) : RawCheckedSliceIter := ⟨base,base+len*size⟩

def next (probe : Probe ε) (it : RawCheckedSliceIter) :
    Option (Except ε (BitVec 64)) × RawCheckedSliceIter :=
  if it.pos = it.stop then (none,it)
  else (some ((probe it.pos).map fun _ => it.pos),{ it with pos := it.pos+size })

def nextBack (probe : Probe ε) (it : RawCheckedSliceIter) :
    Option (Except ε (BitVec 64)) × RawCheckedSliceIter :=
  if it.pos = it.stop then (none,it)
  else
    let pos := it.stop-size
    (some ((probe pos).map fun _ => pos),{ it with stop := pos })

def len (it : RawCheckedSliceIter) : BitVec 64 := (it.stop-it.pos)/size

def sizeHint (it : RawCheckedSliceIter) : BitVec 64 × Option (BitVec 64) :=
  (it.len size,some (it.len size))

def advanceBy (n : BitVec 64) (it : RawCheckedSliceIter) :
    Except (BitVec 64) Unit × RawCheckedSliceIter :=
  let len := it.len size
  if n ≤ len then (.ok (),{ it with pos := it.pos+n*size }) else (.error (n-len),it)

/-- The provided `advance_back_by`, with `n` calls of `next_back` left to make. -/
def advanceBackBy (probe : Probe ε) : ℕ → RawCheckedSliceIter → Except ℕ Unit × RawCheckedSliceIter
  | 0,it => (.ok (),it)
  | n+1,it =>
    match it.nextBack size probe with
    | (none,it) => (.error (n+1),it)
    | (some _,it) => advanceBackBy probe n it

end RawCheckedSliceIter

/-- The reference the wrapper hands out. -/
inductive RefKind
  | shared
  | exclusive
  deriving DecidableEq, Repr

/-- `CheckedSliceIter` and `CheckedSliceIterMut`, which forward every method to the same
`RawCheckedSliceIter<T, Read>`. -/
structure CheckedIter (k : RefKind) where
  raw : RawCheckedSliceIter
  deriving DecidableEq, Repr

abbrev CheckedSliceIter := CheckedIter .shared
abbrev CheckedSliceIterMut := CheckedIter .exclusive

/-- `from_kslice_unchecked`, of either wrapper. -/
def CheckedIter.fromKslice (k : RefKind) (size : BitVec 64) (s : KSlice) : CheckedIter k :=
  ⟨.newUnchecked size s.arrPtr s.len⟩

def iterChecked (size : BitVec 64) (slice : KSlice) : CheckedSliceIter := .fromKslice _ size slice
def iterMutChecked (size : BitVec 64) (slice : KSlice) : CheckedSliceIterMut :=
  .fromKslice _ size slice

/-- The calls of the two wrappers, with the probes each would make. -/
inductive IterCall (ε : Type*)
  | next (probe : Probe ε)
  | nextBack (probe : Probe ε)
  | advanceBy (n : BitVec 64)
  | advanceBackBy (n : BitVec 64) (probe : Probe ε)
  | len
  | sizeHint

inductive IterReply (ε : Type*)
  | front (item : Option (Except ε (BitVec 64)))
  | back (item : Option (Except ε (BitVec 64)))
  | advanced (n : BitVec 64) (result : Except (BitVec 64) Unit)
  | advancedBack (n : BitVec 64) (result : Except ℕ Unit)
  | len (n : BitVec 64)
  | sizeHint (lo : BitVec 64) (hi : Option (BitVec 64))

section Machine

variable {ε : Type*} {k : RefKind} (size : BitVec 64)

def CheckedIter.call (it : CheckedIter k) : IterCall ε → IterReply ε × CheckedIter k
  | .next probe => let (r,raw) := it.raw.next size probe; (.front r,⟨raw⟩)
  | .nextBack probe => let (r,raw) := it.raw.nextBack size probe; (.back r,⟨raw⟩)
  | .advanceBy n => let (r,raw) := it.raw.advanceBy size n; (.advanced n r,⟨raw⟩)
  | .advanceBackBy n probe =>
    let (r,raw) := RawCheckedSliceIter.advanceBackBy size probe n.toNat it.raw
    (.advancedBack n r,⟨raw⟩)
  | .len => (.len (it.raw.len size),it)
  | .sizeHint => let (lo,hi) := it.raw.sizeHint size; (.sizeHint lo hi,it)

/-- The replies to a sequence of calls and the iterator after it. -/
def CheckedIter.calls (it : CheckedIter k) : List (IterCall ε) → List (IterReply ε) × CheckedIter k
  | [] => ([],it)
  | c::cs =>
    let (r,it) := it.call size c
    let (rs,it) := it.calls cs
    (r::rs,it)

/-- The addresses handed out at the front, in order. -/
def fronts (rs : List (IterReply ε)) : List (BitVec 64) :=
  rs.filterMap fun
    | .front (some (.ok a)) => some a
    | _ => none

/-- The addresses handed out at the back, in order. -/
def backs (rs : List (IterReply ε)) : List (BitVec 64) :=
  rs.filterMap fun
    | .back (some (.ok a)) => some a
    | _ => none

/-- The number of steps `advance_back_by` could not make. -/
def shortBy : Except ℕ Unit → ℕ
  | .ok _ => 0
  | .error left => left

/-- How many elements a call passed, as its reply tells. -/
def IterReply.passed : IterReply ε → ℕ
  | .front (some _) | .back (some _) => 1
  | .advanced n (.ok _) => n.toNat
  | .advancedBack n result => n.toNat-shortBy result
  | _ => 0

def passed (rs : List (IterReply ε)) : ℕ := (rs.map IterReply.passed).sum

end Machine

/-- The elements not yet passed are those with index in `[i, j)`. -/
structure Window (size base : BitVec 64) (it : RawCheckedSliceIter) (i j : ℕ) : Prop where
  pos : it.pos.toNat = base.toNat+i*size.toNat
  stop : it.stop.toNat = base.toNat+j*size.toNat
  le : i ≤ j

namespace Window

variable {ε : Type*} {size base : BitVec 64} {it : RawCheckedSliceIter} {i j : ℕ}

lemma width (h : Window size base it i j) :
    (it.stop-it.pos).toNat = (j-i)*size.toNat := by
  have hmul := Nat.mul_le_mul_right size.toNat h.le
  have hle : it.pos ≤ it.stop := by
    rw [BitVec.le_def,h.pos,h.stop]
    omega
  rw [BitVec.toNat_sub_of_le hle,h.pos,h.stop,Nat.sub_mul]
  omega

lemma len (h : Window size base it i j) (hs : 0 < size.toNat) : (it.len size).toNat = j-i := by
  rw [RawCheckedSliceIter.len,BitVec.toNat_udiv,h.width,Nat.mul_div_cancel _ hs]

lemma pos_eq_stop (h : Window size base it i j) (hs : 0 < size.toNat) : it.pos = it.stop ↔ i = j := by
  rw [BitVec.toNat_eq,h.pos,h.stop]
  constructor
  · intro he
    exact Nat.eq_of_mul_eq_mul_right hs (by omega)
  · rintro rfl
    rfl

/-- The front cursor moved past `n` elements. -/
lemma advance (h : Window size base it i j) {n : BitVec 64} (hn : n.toNat ≤ j-i) :
    Window size base { it with pos := it.pos+n*size } (i+n.toNat) j := by
  have hle := h.le
  have hmul : i*size.toNat+n.toNat*size.toNat ≤ j*size.toNat := by
    rw [← Nat.add_mul]
    exact Nat.mul_le_mul_right _ (by omega)
  have hstop := it.stop.isLt
  rw [h.stop] at hstop
  have hoff : (n*size).toNat = n.toNat*size.toNat := by
    rw [BitVec.toNat_mul]
    exact Nat.mod_eq_of_lt (by omega)
  refine ⟨?_,h.stop,by omega⟩
  rw [BitVec.toNat_add,hoff,h.pos,Nat.mod_eq_of_lt (by omega),Nat.add_mul]
  omega

lemma advance_one (h : Window size base it i j) (hlt : i < j) :
    Window size base { it with pos := it.pos+size } (i+1) j := by
  have hadv := h.advance (n := 1#64) (by simp; omega)
  rwa [BitVec.one_mul] at hadv

/-- The back cursor moved past one element. -/
lemma retreat (h : Window size base it i j) (hlt : i < j) :
    Window size base { it with stop := it.stop-size } i (j-1) := by
  have hj : j*size.toNat = (j-1)*size.toNat+size.toNat := by
    rw [← Nat.succ_mul]
    congr 1
    omega
  have hle : size ≤ it.stop := by
    rw [BitVec.le_def,h.stop]
    omega
  refine ⟨h.pos,?_,by omega⟩
  rw [BitVec.toNat_sub_of_le hle,h.stop]
  omega

end Window

/-- What calls did that moved the window from `[i, j)` to `[i', j')`: which addresses they handed out
at either end, and how many elements they passed. -/
structure Passes (size base : BitVec 64) (i j i' j' : ℕ) (fs bs : List (BitVec 64)) (n : ℕ) :
    Prop where
  lo : i ≤ i'
  hi : j' ≤ j
  fronts : ∀ a ∈ fs, ∃ k, i ≤ k ∧ k < i' ∧ a.toNat = base.toNat+k*size.toNat
  backs : ∀ a ∈ bs, ∃ k, j' ≤ k ∧ k < j ∧ a.toNat = base.toNat+k*size.toNat
  ascending : fs.Pairwise (· < ·)
  descending : bs.Pairwise (· > ·)
  count : n = (i'-i)+(j-j')

namespace Passes

variable {size base : BitVec 64} {i j i' j' i'' j'' m n : ℕ} {fs bs fs' bs' : List (BitVec 64)}

/-- Nothing handed out. -/
lemma quiet (hi : i ≤ i') (hj : j' ≤ j) : Passes size base i j i' j' [] [] ((i'-i)+(j-j')) :=
  ⟨hi,hj,by simp,by simp,.nil,.nil,rfl⟩

lemma trans (hs : 0 < size.toNat) (h : Passes size base i j i' j' fs bs m)
    (h' : Passes size base i' j' i'' j'' fs' bs' n) :
    Passes size base i j i'' j'' (fs++fs') (bs++bs') (m+n) := by
  have hlo := h.lo
  have hlo' := h'.lo
  have hhi := h.hi
  have hhi' := h'.hi
  refine ⟨by omega,by omega,fun a ha => ?_,fun a ha => ?_,?_,?_,?_⟩
  · cases List.mem_append.mp ha with
    | inl ha =>
      obtain ⟨k,hk,hk',hak⟩ := h.fronts a ha
      exact ⟨k,hk,by omega,hak⟩
    | inr ha =>
      obtain ⟨k,hk,hk',hak⟩ := h'.fronts a ha
      exact ⟨k,by omega,hk',hak⟩
  · cases List.mem_append.mp ha with
    | inl ha =>
      obtain ⟨k,hk,hk',hak⟩ := h.backs a ha
      exact ⟨k,by omega,hk',hak⟩
    | inr ha =>
      obtain ⟨k,hk,hk',hak⟩ := h'.backs a ha
      exact ⟨k,hk,by omega,hak⟩
  · rw [List.pairwise_append]
    refine ⟨h.ascending,h'.ascending,fun a ha b hb => ?_⟩
    obtain ⟨k,-,hk,hak⟩ := h.fronts a ha
    obtain ⟨l,hl,-,hbl⟩ := h'.fronts b hb
    have hmul := Nat.mul_lt_mul_of_pos_right (show k < l by omega) hs
    rw [BitVec.lt_def]
    omega
  · rw [List.pairwise_append]
    refine ⟨h.descending,h'.descending,fun a ha b hb => ?_⟩
    obtain ⟨k,hk,-,hak⟩ := h.backs a ha
    obtain ⟨l,-,hl,hbl⟩ := h'.backs b hb
    have hmul := Nat.mul_lt_mul_of_pos_right (show l < k by omega) hs
    change b < a
    rw [BitVec.lt_def]
    omega
  · have := h.count
    have := h'.count
    omega

/-- What the front handed out comes before what the back did. -/
lemma nodup (hs : 0 < size.toNat) (h : Passes size base i j i' j' fs bs n) (hle : i' ≤ j') :
    (fs++bs).Nodup := by
  rw [List.nodup_append]
  refine ⟨h.ascending.imp BitVec.ne_of_lt,h.descending.imp fun hab => (BitVec.ne_of_lt hab).symm,
    fun a ha b hb hab => ?_⟩
  obtain ⟨k,-,hk,hak⟩ := h.fronts a ha
  obtain ⟨l,hl,-,hbl⟩ := h.backs b hb
  have hmul := Nat.mul_lt_mul_of_pos_right (show k < l by omega) hs
  rw [hab] at hak
  omega

end Passes

section Runs

variable {ε : Type*} {k : RefKind} {size base : BitVec 64}

lemma fronts_cons (r : IterReply ε) (rs : List (IterReply ε)) :
    fronts (r::rs) = fronts [r]++fronts rs := by
  rw [fronts,fronts,fronts,← List.filterMap_append,List.singleton_append]

lemma backs_cons (r : IterReply ε) (rs : List (IterReply ε)) :
    backs (r::rs) = backs [r]++backs rs := by
  rw [backs,backs,backs,← List.filterMap_append,List.singleton_append]

lemma passed_cons (r : IterReply ε) (rs : List (IterReply ε)) :
    passed (r::rs) = r.passed+passed rs := by
  simp [passed]

variable {it : RawCheckedSliceIter} {i j : ℕ}

/-- The element at the front, if there is one. -/
lemma Window.next (h : Window size base it i j) (hs : 0 < size.toNat) (probe : Probe ε) :
    it.next size probe =
      if i = j then (none,it)
      else (some ((probe it.pos).map fun _ => it.pos),{ it with pos := it.pos+size }) := by
  simp only [RawCheckedSliceIter.next,h.pos_eq_stop hs]

/-- The element at the back, if there is one. -/
lemma Window.nextBack (h : Window size base it i j) (hs : 0 < size.toNat) (probe : Probe ε) :
    it.nextBack size probe =
      if i = j then (none,it)
      else (some ((probe (it.stop-size)).map fun _ => it.stop-size),
        { it with stop := it.stop-size }) := by
  simp only [RawCheckedSliceIter.nextBack,h.pos_eq_stop hs]

/-- The element asked for is all that can be handed out. -/
lemma mem_fronts {x : Except ε Unit} {a b : BitVec 64}
    (h : b ∈ fronts [IterReply.front (some (x.map fun _ => a))]) : b = a := by
  cases x with
  | error e => simp [fronts,Except.map] at h
  | ok u => simpa [fronts,Except.map] using h

lemma mem_backs {x : Except ε Unit} {a b : BitVec 64}
    (h : b ∈ backs [IterReply.back (some (x.map fun _ => a))]) : b = a := by
  cases x with
  | error e => simp [backs,Except.map] at h
  | ok u => simpa [backs,Except.map] using h

lemma pairwise_of_length_le_one {α : Type*} {R : α → α → Prop} {l : List α} (h : l.length ≤ 1) :
    l.Pairwise R := by
  cases l with
  | nil => exact .nil
  | cons a l =>
    cases l with
    | nil => exact List.pairwise_singleton _ _
    | cons b l => simp at h

/-- A call that changes nothing. -/
lemma Passes.refl (i j : ℕ) : Passes size base i j i j [] [] 0 := by
  have h : Passes size base i j i j [] [] ((i-i)+(j-j)) := .quiet le_rfl le_rfl
  rwa [Nat.sub_self,Nat.sub_self] at h

lemma next_passes (h : Window size base it i j) (hs : 0 < size.toNat) (probe : Probe ε) :
    ∃ i', Window size base (it.next size probe).2 i' j ∧
      Passes size base i j i' j (fronts [IterReply.front (it.next size probe).1]) []
        (IterReply.front (it.next size probe).1).passed := by
  rw [h.next hs]
  by_cases hij : i = j
  · rw [if_pos hij]
    exact ⟨i,h,.refl i j⟩
  · have hle := h.le
    rw [if_neg hij]
    refine ⟨i+1,h.advance_one (by omega),by omega,le_rfl,fun a ha => ?_,by simp,
      pairwise_of_length_le_one (List.length_filterMap_le _ _),.nil,?_⟩
    · exact ⟨i,le_rfl,by omega,by rw [mem_fronts ha,h.pos]⟩
    · change 1 = _
      omega

lemma nextBack_passes (h : Window size base it i j) (hs : 0 < size.toNat) (probe : Probe ε) :
    ∃ j', Window size base (it.nextBack size probe).2 i j' ∧
      Passes size base i j i j' [] (backs [IterReply.back (it.nextBack size probe).1])
        (IterReply.back (it.nextBack size probe).1).passed := by
  rw [h.nextBack hs]
  by_cases hij : i = j
  · rw [if_pos hij]
    exact ⟨j,h,.refl i j⟩
  · have hlt : i < j := by
      have := h.le
      omega
    have hback := h.retreat hlt
    rw [if_neg hij]
    refine ⟨j-1,hback,le_rfl,by omega,by simp,fun a ha => ?_,.nil,
      pairwise_of_length_le_one (List.length_filterMap_le _ _),?_⟩
    · exact ⟨j-1,le_rfl,by omega,by rw [mem_backs ha]; exact hback.stop⟩
    · change 1 = _
      omega

/-- `advance_back_by` hands out nothing and stops early only at an empty window. -/
lemma advanceBackBy_passes (hs : 0 < size.toNat) (probe : Probe ε) (n : ℕ)
    (h : Window size base it i j) :
    ∃ j', Window size base (RawCheckedSliceIter.advanceBackBy size probe n it).2 i j' ∧ j' ≤ j ∧
      n = shortBy (RawCheckedSliceIter.advanceBackBy size probe n it).1+(j-j') := by
  induction n generalizing it j with
  | zero => exact ⟨j,h,le_rfl,by rw [Nat.sub_self]; rfl⟩
  | succ n ih =>
    rw [RawCheckedSliceIter.advanceBackBy,h.nextBack hs]
    by_cases hij : i = j
    · rw [if_pos hij]
      exact ⟨j,h,le_rfl,by rw [Nat.sub_self]; rfl⟩
    · have hlt : i < j := by
        have := h.le
        omega
      rw [if_neg hij]
      obtain ⟨j',hw,hj',hn⟩ := ih (h.retreat hlt)
      refine ⟨j',hw,by omega,?_⟩
      dsimp only
      omega

/-- As long as there are elements enough, `advance_back_by` passes as many as asked. -/
lemma advanceBackBy_ok (hs : 0 < size.toNat) (probe : Probe ε) (n : ℕ)
    (h : Window size base it i j) (hn : n ≤ j-i) :
    (RawCheckedSliceIter.advanceBackBy size probe n it).1 = .ok () ∧
      Window size base (RawCheckedSliceIter.advanceBackBy size probe n it).2 i (j-n) := by
  induction n generalizing it j with
  | zero => exact ⟨rfl,h⟩
  | succ n ih =>
    rw [RawCheckedSliceIter.advanceBackBy,h.nextBack hs,if_neg (by omega)]
    have hrest := ih (h.retreat (by omega)) (by omega)
    rwa [Nat.sub_sub,Nat.add_comm 1 n] at hrest

/-- What one call does to the window. -/
lemma call_passes {it : CheckedIter k} (h : Window size base it.raw i j) (hs : 0 < size.toNat)
    (c : IterCall ε) :
    ∃ i' j', Window size base (it.call size c).2.raw i' j' ∧
      Passes size base i j i' j' (fronts [(it.call size c).1]) (backs [(it.call size c).1])
        (it.call size c).1.passed := by
  cases c with
  | next probe =>
    obtain ⟨i',hw,hp⟩ := next_passes h hs probe
    exact ⟨i',j,hw,hp⟩
  | nextBack probe =>
    obtain ⟨j',hw,hp⟩ := nextBack_passes h hs probe
    exact ⟨i,j',hw,hp⟩
  | advanceBy n =>
    have hlen := h.len hs
    simp only [CheckedIter.call,RawCheckedSliceIter.advanceBy]
    by_cases hn : n ≤ it.raw.len size
    · have hn' : n.toNat ≤ j-i := hlen ▸ hn
      rw [if_pos hn]
      refine ⟨i+n.toNat,j,h.advance hn',by omega,le_rfl,by simp [fronts],by simp [backs],.nil,.nil,?_⟩
      change n.toNat = _
      omega
    · rw [if_neg hn]
      exact ⟨i,j,h,.refl i j⟩
  | advanceBackBy n probe =>
    obtain ⟨j',hw,hj',hn⟩ := advanceBackBy_passes hs probe n.toNat h
    refine ⟨i,j',hw,le_rfl,hj',by simp [fronts,CheckedIter.call],by simp [backs,CheckedIter.call],
      .nil,.nil,?_⟩
    simp only [CheckedIter.call,IterReply.passed]
    omega
  | len => exact ⟨i,j,h,.refl i j⟩
  | sizeHint => exact ⟨i,j,h,.refl i j⟩

/-- What a sequence of calls does to the window. -/
lemma calls_passes {it : CheckedIter k} (h : Window size base it.raw i j) (hs : 0 < size.toNat)
    (cs : List (IterCall ε)) :
    ∃ i' j', Window size base (it.calls size cs).2.raw i' j' ∧
      Passes size base i j i' j' (fronts (it.calls size cs).1) (backs (it.calls size cs).1)
        (passed (it.calls size cs).1) := by
  induction cs generalizing it i j with
  | nil => exact ⟨i,j,h,.refl i j⟩
  | cons c cs ih =>
    obtain ⟨i₁,j₁,hw₁,hp₁⟩ := call_passes h hs c
    obtain ⟨i₂,j₂,hw₂,hp₂⟩ := ih hw₁
    refine ⟨i₂,j₂,hw₂,?_⟩
    have happ := hp₁.trans hs hp₂
    rwa [← fronts_cons,← backs_cons,← passed_cons] at happ

/-- An exhausted iterator stays as it is, whatever is called. -/
lemma calls_exhausted {it : CheckedIter k} (h : Window size base it.raw i i) (hs : 0 < size.toNat)
    (cs : List (IterCall ε)) : Window size base (it.calls size cs).2.raw i i := by
  obtain ⟨i',j',hw,hp⟩ := calls_passes h hs cs
  have hle := hw.le
  have hlo := hp.lo
  have hhi := hp.hi
  have hi : i' = i := by omega
  have hj : j' = i := by omega
  rwa [hi,hj] at hw

/-- What the iterator does next: it answers with an element from either end while there is one, passes
as many elements as it is told to, and tells how many are left. -/
structure Serves (ε : Type*) (size : BitVec 64) (it : CheckedIter k) : Prop where
  next : it.raw.len size ≠ 0#64 → ∀ probe : Probe ε,
    (∃ a, (it.call size (.next probe)).1 = .front (some ((probe a).map fun _ => a))) ∧
      ((it.call size (.next probe)).2.raw.len size).toNat+1 = (it.raw.len size).toNat
  nextBack : it.raw.len size ≠ 0#64 → ∀ probe : Probe ε,
    (∃ a, (it.call size (.nextBack probe)).1 = .back (some ((probe a).map fun _ => a))) ∧
      ((it.call size (.nextBack probe)).2.raw.len size).toNat+1 = (it.raw.len size).toNat
  advanceBy : ∀ n ≤ it.raw.len size,
    (it.call size (.advanceBy (ε := ε) n)).1 = .advanced n (.ok ()) ∧
      ((it.call size (.advanceBy (ε := ε) n)).2.raw.len size).toNat+n.toNat =
        (it.raw.len size).toNat
  advanceBackBy : ∀ n ≤ it.raw.len size, ∀ probe : Probe ε,
    (it.call size (.advanceBackBy n probe)).1 = .advancedBack n (.ok ()) ∧
      ((it.call size (.advanceBackBy n probe)).2.raw.len size).toNat+n.toNat =
        (it.raw.len size).toNat
  len : it.call size (.len (ε := ε)) = (.len (it.raw.len size),it)
  sizeHint : it.call size (.sizeHint (ε := ε)) =
    (.sizeHint (it.raw.len size) (some (it.raw.len size)),it)

lemma Window.serves {it : CheckedIter k} (h : Window size base it.raw i j) (hs : 0 < size.toNat) :
    Serves ε size it := by
  have hlen := h.len hs
  have hlt : it.raw.len size ≠ 0#64 → i < j := by
    intro hne
    by_contra hge
    apply hne
    apply BitVec.eq_of_toNat_eq
    rw [hlen]
    change j-i = 0
    omega
  refine ⟨fun hne probe => ?_,fun hne probe => ?_,fun n hn => ?_,fun n hn probe => ?_,rfl,rfl⟩
  · have hij := hlt hne
    have hrest := (h.advance_one hij).len hs
    simp only [CheckedIter.call,h.next hs,if_neg hij.ne]
    exact ⟨⟨_,rfl⟩,by omega⟩
  · have hij := hlt hne
    have hrest := (h.retreat hij).len hs
    simp only [CheckedIter.call,h.nextBack hs,if_neg hij.ne]
    exact ⟨⟨_,rfl⟩,by omega⟩
  · have hle : n.toNat ≤ j-i := hlen ▸ hn
    have hrest := (h.advance hle).len hs
    simp only [CheckedIter.call,RawCheckedSliceIter.advanceBy,if_pos hn]
    exact ⟨trivial,by omega⟩
  · have hle : n.toNat ≤ j-i := hlen ▸ hn
    obtain ⟨hok,hwindow⟩ := advanceBackBy_ok hs probe n.toNat h hle
    have hrest := hwindow.len hs
    simp only [CheckedIter.call,hok]
    exact ⟨trivial,by omega⟩

/-- What holds of the replies to a sequence of calls on an iterator over `slice`, and of the iterator
after it. -/
structure VisitedOnce (size : BitVec 64) (slice : KSlice) (rs : List (IterReply ε))
    (it : CheckedIter k) : Prop where
  serves : Serves ε size it
  base_le : slice.arrPtr.toNat ≤ it.raw.pos.toNat
  pos_le : it.raw.pos.toNat ≤ it.raw.stop.toNat
  whole : size.toNat ∣ it.raw.stop.toNat-it.raw.pos.toNat
  len : (it.raw.len size).toNat+passed rs = slice.len.toNat
  elements : ∀ a ∈ fronts rs++backs rs, ∃ n < slice.len.toNat,
    a.toNat = slice.arrPtr.toNat+n*size.toNat
  ascending : (fronts rs).Pairwise (· < ·)
  descending : (backs rs).Pairwise (· > ·)
  once : (fronts rs++backs rs).Nodup
  exhausted : it.raw.len size = 0#64 → ∀ (more : List (IterCall ε)) (probe : Probe ε),
    ((it.calls size more).2.raw.next size probe).1 = none ∧
      ((it.calls size more).2.raw.nextBack size probe).1 = none

/-- The window of a new iterator is the whole slice. -/
lemma fromKslice_window (k : RefKind) {slice : KSlice}
    (hfit : slice.arrPtr.toNat+slice.len.toNat*size.toNat < 2^64) :
    Window size slice.arrPtr (CheckedIter.fromKslice k size slice).raw 0 slice.len.toNat := by
  have hmul : (slice.len*size).toNat = slice.len.toNat*size.toNat := by
    rw [BitVec.toNat_mul]
    exact Nat.mod_eq_of_lt (by omega)
  refine ⟨by simp [CheckedIter.fromKslice,RawCheckedSliceIter.newUnchecked],?_,Nat.zero_le _⟩
  change (slice.arrPtr+slice.len*size).toNat = _
  rw [BitVec.toNat_add,hmul,Nat.mod_eq_of_lt hfit]

/-- Every sequence of calls on a checked iterator keeps the cursors on element boundaries, hands out
no address twice and in order from either end, and counts what is left; the next call is answered
according to that count. -/
theorem slice_visited_once (k : RefKind) (slice : KSlice) (hs : 0 < size.toNat)
    (hfit : slice.arrPtr.toNat+slice.len.toNat*size.toNat < 2^64) (cs : List (IterCall ε)) :
    VisitedOnce size slice ((CheckedIter.fromKslice k size slice).calls size cs).1
      ((CheckedIter.fromKslice k size slice).calls size cs).2 := by
  obtain ⟨i,j,hw,hp⟩ := calls_passes (fromKslice_window k hfit) hs cs
  have hle := hw.le
  have hhi := hp.hi
  have hmul := Nat.mul_le_mul_right size.toNat hle
  have hpos := hw.pos
  have hstop := hw.stop
  refine ⟨hw.serves hs,by omega,by omega,⟨j-i,?_⟩,?_,fun a ha => ?_,hp.ascending,hp.descending,hp.nodup hs hle,
    fun hzero more probe => ?_⟩
  · rw [hpos,hstop,Nat.mul_comm size.toNat,Nat.sub_mul]
    omega
  · rw [hw.len hs,hp.count]
    omega
  · cases List.mem_append.mp ha with
    | inl ha =>
      obtain ⟨n,-,hn,han⟩ := hp.fronts a ha
      exact ⟨n,by omega,han⟩
    | inr ha =>
      obtain ⟨n,-,hn,han⟩ := hp.backs a ha
      exact ⟨n,hn,han⟩
  · have hij : i = j := by
      have hlen := hw.len hs
      rw [hzero] at hlen
      change 0 = j-i at hlen
      omega
    subst hij
    have hdone := calls_exhausted hw hs more
    rw [hdone.next hs,hdone.nextBack hs,if_pos rfl,if_pos rfl]
    exact ⟨rfl,rfl⟩

/-- Three elements of 12 bytes taken from both ends, the one in the middle behind a failing probe. -/
theorem slice_visited_once_three :
    VisitedOnce (ε := Unit) (k := .exclusive) 12#64 ⟨0x1000#64,3#64⟩
      [.front (some (.ok 0x1000#64)),.back (some (.ok 0x1018#64)),.front (some (.error ())),
        .back none]
      ⟨⟨0x1018#64,0x1018#64⟩⟩ := by
  exact slice_visited_once .exclusive ⟨0x1000#64,3#64⟩ (by decide) (by decide)
    [.next fun _ => .ok (),.nextBack fun _ => .ok (),.next fun _ => .error (),
      .nextBack fun _ => .ok ()]

end Runs

end WinterLily.Access
