import WinterLily.Access.NextChunk

/-! The checked iterators over a slice of any length. The end cursor wraps with the address space and
is compared for equality only, so the iterator has as many elements as the length leaves modulo the
period of the element size, and it hands out those of them whose probe passes. -/
namespace WinterLily.Access
open WinterLily.Memory WinterLily.Stride

variable {ε : Type*} {k : RefKind}

/-- The same call with the probes made by `probe`. -/
def IterCall.withProbe (probe : Probe ε) : IterCall ε → IterCall ε
  | .next _ => .next probe
  | .nextBack _ => .nextBack probe
  | .advanceBy n => .advanceBy n
  | .advanceBackBy n _ => .advanceBackBy n probe
  | .len => .len
  | .sizeHint => .sizeHint

/-- The addresses that `next` and `next_back` hand out in a sequence of calls. -/
def handedOut (size : Word) (probe : Probe ε) (it : CheckedIter k) (cs : List (IterCall ε)) :
    List Word :=
  let rs := (it.calls size (cs.map (.withProbe probe))).1
  fronts rs++backs rs

/-- How many elements the iterator over a slice has. -/
def elements (size : Word) (slice : KSlice) : ℕ := slice.len.toNat%period size

/-- The cursors are `i` and `j` strides from the base, with fewer than a period between them. -/
structure Cursor (size base : Word) (n : ℕ) (it : RawCheckedSliceIter) (i j : ℕ) : Prop where
  pos : it.pos = strideAt base size i
  stop : it.stop = strideAt base size j
  le : i ≤ j
  hi : j ≤ n
  lt : n < period size

namespace Cursor

variable {size base : Word} {n i j : ℕ} {it : RawCheckedSliceIter}

lemma pos_eq_stop (h : Cursor size base n it i j) : it.pos = it.stop ↔ i = j := by
  have hle := h.le
  have hhi := h.hi
  have hlt := h.lt
  rw [h.pos,h.stop,strideAt_inj (by omega) (by omega)]

lemma advance (h : Cursor size base n it i j) {m : ℕ} (hm : m ≤ j-i) :
    Cursor size base n { it with pos := it.pos+BitVec.ofNat 64 m*size } (i+m) j := by
  have hle := h.le
  exact ⟨by rw [h.pos,strideAt_add],h.stop,by omega,h.hi,h.lt⟩

lemma advance_one (h : Cursor size base n it i j) (hij : i < j) :
    Cursor size base n { it with pos := it.pos+size } (i+1) j :=
  ⟨by rw [h.pos,strideAt_succ],h.stop,hij,h.hi,h.lt⟩

lemma retreat (h : Cursor size base n it i j) (hij : i < j) :
    Cursor size base n { it with stop := it.stop-size } i (j-1) := by
  have hhi := h.hi
  have hprev : it.stop-size = strideAt base size (j-1) := by
    have hsucc := strideAt_succ base size (j-1)
    rw [Nat.sub_add_cancel (Nat.one_le_of_lt hij)] at hsucc
    rw [h.stop,← hsucc]
    exact add_sub_cancel_right _ size
  exact ⟨h.pos,hprev,by omega,by omega,h.lt⟩

/-- The bytes between the cursors hold no more elements than there are. -/
lemma len_le (h : Cursor size base n it i j) : (it.len size).toNat ≤ j-i := by
  have hgap : it.gap ≤ (j-i)*size.toNat := by
    have hdiff : it.stop-it.pos = BitVec.ofNat 64 (j-i)*size := by
      have hj : it.stop = it.pos+BitVec.ofNat 64 (j-i)*size := by
        rw [h.pos,h.stop,strideAt_add,Nat.add_sub_cancel' h.le]
      rw [hj]
      exact add_sub_cancel_left _ _
    rw [RawCheckedSliceIter.gap,hdiff,BitVec.toNat_mul,BitVec.toNat_ofNat,Nat.mod_mul_mod]
    exact Nat.mod_le _ _
  rw [RawCheckedSliceIter.len_toNat]
  exact Nat.div_le_of_le_mul (hgap.trans (Nat.mul_comm _ _).le)

end Cursor

/-- Element `k` of the iterator's. -/
def Element (size base : Word) (n : ℕ) (a : Word) : Prop := ∃ k < n, a = strideAt base size k

section Runs

variable {size base : Word} {n i j : ℕ} (probe : Probe ε)

lemma fromKslice_cursor (k : RefKind) (size : Word) (slice : KSlice) :
    Cursor size slice.arrPtr (elements size slice) (CheckedIter.fromKslice k size slice).raw 0
      (elements size slice) := by
  have hlt := Nat.mod_lt slice.len.toNat (period_pos size)
  refine ⟨(strideAt_zero _ _).symm,?_,Nat.zero_le _,le_rfl,hlt⟩
  change slice.arrPtr+slice.len*size = _
  rw [← RawCheckedSliceIter.strideAt_toNat,strideAt_eq_iff]
  exact (Nat.mod_modEq _ _).symm

/-- An item handed out passed its probe. -/
lemma mem_fronts_probe {a b : Word}
    (h : b ∈ fronts [IterReply.front (some ((probe a).map fun _ => a))]) :
    b = a ∧ probe a = .ok () := by
  cases hp : probe a with
  | error e => simp [hp,fronts,Except.map] at h
  | ok u => simpa [hp,fronts,Except.map] using h

lemma mem_backs_probe {a b : Word}
    (h : b ∈ backs [IterReply.back (some ((probe a).map fun _ => a))]) :
    b = a ∧ probe a = .ok () := by
  cases hp : probe a with
  | error e => simp [hp,backs,Except.map] at h
  | ok u => simpa [hp,backs,Except.map] using h

lemma advanceBackBy_cursor (m : ℕ) {it : RawCheckedSliceIter} (h : Cursor size base n it i j) :
    ∃ j', Cursor size base n (RawCheckedSliceIter.advanceBackBy size probe m it).2 i j' := by
  induction m generalizing it j with
  | zero => exact ⟨j,h⟩
  | succ m ih =>
    rw [RawCheckedSliceIter.advanceBackBy,RawCheckedSliceIter.nextBack]
    by_cases hij : i = j
    · rw [if_pos (h.pos_eq_stop.mpr hij)]
      exact ⟨j,h⟩
    · have hle := h.le
      rw [if_neg (mt h.pos_eq_stop.mp hij)]
      exact ih (h.retreat (by omega))

/-- One call keeps the cursors on the strides and hands out an element that passed its probe. -/
lemma call_cursor {it : CheckedIter k} (h : Cursor size base n it.raw i j) (c : IterCall ε) :
    (∃ i' j', Cursor size base n (it.call size (c.withProbe probe)).2.raw i' j') ∧
      ∀ a ∈ fronts [(it.call size (c.withProbe probe)).1]++
          backs [(it.call size (c.withProbe probe)).1],
        Element size base n a ∧ probe a = .ok () := by
  have hle := h.le
  have hhi := h.hi
  cases c with
  | next _ =>
    simp only [IterCall.withProbe,CheckedIter.call,RawCheckedSliceIter.next,h.pos_eq_stop]
    by_cases hij : i = j
    · rw [if_pos hij]
      exact ⟨⟨i,j,h⟩,by simp [fronts,backs]⟩
    · rw [if_neg hij]
      refine ⟨⟨i+1,j,h.advance_one (by omega)⟩,fun a ha => ?_⟩
      obtain ⟨rfl,hp⟩ := mem_fronts_probe probe (by simpa [backs] using ha)
      exact ⟨⟨i,by omega,h.pos⟩,hp⟩
  | nextBack _ =>
    simp only [IterCall.withProbe,CheckedIter.call,RawCheckedSliceIter.nextBack,h.pos_eq_stop]
    by_cases hij : i = j
    · rw [if_pos hij]
      exact ⟨⟨i,j,h⟩,by simp [fronts,backs]⟩
    · have hback := h.retreat (by omega)
      rw [if_neg hij]
      refine ⟨⟨i,j-1,hback⟩,fun a ha => ?_⟩
      obtain ⟨rfl,hp⟩ := mem_backs_probe probe (by simpa [fronts] using ha)
      exact ⟨⟨j-1,by omega,hback.stop⟩,hp⟩
  | advanceBy m =>
    simp only [IterCall.withProbe,CheckedIter.call,RawCheckedSliceIter.advanceBy]
    by_cases hm : m ≤ it.raw.len size
    · have hadv := h.advance ((BitVec.le_def.mp hm).trans h.len_le)
      rw [BitVec.ofNat_toNat,BitVec.setWidth_eq] at hadv
      rw [if_pos hm]
      exact ⟨⟨i+m.toNat,j,hadv⟩,by simp [fronts,backs]⟩
    · rw [if_neg hm]
      exact ⟨⟨i,j,h⟩,by simp [fronts,backs]⟩
  | advanceBackBy m _ =>
    obtain ⟨j',hw⟩ := advanceBackBy_cursor probe m.toNat h
    exact ⟨⟨i,j',hw⟩,by simp [fronts,backs,IterCall.withProbe,CheckedIter.call]⟩
  | len | sizeHint => exact ⟨⟨i,j,h⟩,by simp [fronts,backs,IterCall.withProbe,CheckedIter.call]⟩

lemma calls_cursor {it : CheckedIter k} (h : Cursor size base n it.raw i j)
    (cs : List (IterCall ε)) :
    ∀ a ∈ handedOut size probe it cs, Element size base n a ∧ probe a = .ok () := by
  induction cs generalizing it i j with
  | nil => simp [handedOut,CheckedIter.calls,fronts,backs]
  | cons c cs ih =>
    obtain ⟨⟨i',j',hw⟩,hitems⟩ := call_cursor probe h c
    intro a ha
    have hrest := ih hw a
    unfold handedOut at *
    simp only [List.map_cons,CheckedIter.calls] at ha
    rw [fronts_cons,backs_cons] at ha
    simp only [List.mem_append] at ha hitems hrest
    rcases ha with (ha | ha) | ha | ha
    · exact hitems a (.inl ha)
    · exact hrest (.inl ha)
    · exact hitems a (.inr ha)
    · exact hrest (.inr ha)

lemma mem_handedOut_next {it : CheckedIter k} (hne : ¬ it.raw.pos = it.raw.stop)
    {cs : List (IterCall ε)} {a : Word}
    (ha : a ∈ handedOut (k := k) size probe ⟨{ it.raw with pos := it.raw.pos+size }⟩ cs) :
    a ∈ handedOut size probe it (.next probe::cs) := by
  unfold handedOut at *
  simp only [List.map_cons,IterCall.withProbe,CheckedIter.calls,CheckedIter.call,
    RawCheckedSliceIter.next,hne,if_false]
  rw [fronts_cons,backs_cons]
  simp only [List.mem_append] at ha ⊢
  exact ha.imp .inr .inr

/-- Calls of `next` get to any element. -/
lemma exists_handedOut {it : CheckedIter k} (h : Cursor size base n it.raw i j) {l : ℕ}
    (hi : i ≤ l) (hj : l < j) (hp : probe (strideAt base size l) = .ok ()) :
    ∃ cs, strideAt base size l ∈ handedOut size probe it cs := by
  obtain ⟨d,rfl⟩ := Nat.exists_eq_add_of_le hi
  induction d generalizing it i with
  | zero =>
    have hne : ¬ it.raw.pos = it.raw.stop := mt h.pos_eq_stop.mp (by omega)
    refine ⟨[.next probe],?_⟩
    rw [Nat.add_zero,← h.pos] at hp ⊢
    simp [handedOut,IterCall.withProbe,CheckedIter.calls,CheckedIter.call,RawCheckedSliceIter.next,
      hne,hp,fronts,Except.map]
  | succ d ih =>
    have hne : ¬ it.raw.pos = it.raw.stop := mt h.pos_eq_stop.mp (by omega)
    have hnext : Cursor size base n (⟨{ it.raw with pos := it.raw.pos+size }⟩ : CheckedIter k).raw
        (i+1) j := h.advance_one (by omega)
    have hsplit : i+1+d = i+(d+1) := by omega
    rw [← hsplit] at hp ⊢
    obtain ⟨cs,hcs⟩ := ih hnext (by omega) (by omega) hp
    exact ⟨.next probe::cs,mem_handedOut_next probe hne hcs⟩

/-- What an iterator over a slice can hand out: the elements that pass their probe. -/
theorem exists_handedOut_iff (k : RefKind) (size : Word) (slice : KSlice) (a : Word) :
    (∃ cs, a ∈ handedOut size probe (CheckedIter.fromKslice k size slice) cs) ↔
      Element size slice.arrPtr (elements size slice) a ∧ probe a = .ok () := by
  have hw := fromKslice_cursor k size slice
  constructor
  · rintro ⟨cs,ha⟩
    exact calls_cursor probe hw cs a ha
  · rintro ⟨⟨l,hl,rfl⟩,hp⟩
    exact exists_handedOut probe hw (Nat.zero_le l) hl hp

end Runs

end WinterLily.Access
