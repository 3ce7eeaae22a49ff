import WinterLily.Access.Checked
import WinterLily.Access.SliceIter
import Mathlib.Data.Nat.Choose.Basic

/-! `probe_checked` of `helpers.rs`, over checked accesses of single bytes that fail exactly where
the permission map closes the byte. The loop moves its pointer by the running product `i * 4096`, so
the page it is at in turn `i` is the one numbered `i` choose 2, and the last byte touched is the first
of the last element. -/
namespace WinterLily.Access
open WinterLily.Memory

/-- The implementations of `CheckedAccessType`. -/
inductive CheckedAccessType
  | read
  | write
  deriving DecidableEq, Repr

/-- `DO_WRITEBACK`. -/
def CheckedAccessType.doWriteback : CheckedAccessType → Bool
  | .read => false
  | .write => true

/-- A checked access of one byte. -/
def accessByte (p : Perms 64) (acc : Access) (a : Word) : Except CheckedAccessError Unit :=
  match p acc a with
  | none => .ok ()
  | some _ => .error ⟨a,.read⟩

/-- The read of a byte and, where the type asks for it, the write that puts it back. -/
def touch (p : Perms 64) (ty : CheckedAccessType) (a : Word) : Except CheckedAccessError Unit := do
  accessByte p .read a
  if ty.doWriteback then accessByte p .write a

/-- The bytes touched, the one that was refused included, and the result. -/
abbrev Touched := List Word × Except CheckedAccessError Unit

/-- The loop with `n` turns left, in turn `i`. -/
def probeLoop (p : Perms 64) (ty : CheckedAccessType) : ℕ → Word → ℕ → Touched
  | 0,_,_ => ([],.ok ())
  | n+1,ptr,i =>
    match touch p ty ptr with
    | .error e => ([ptr],.error e)
    | .ok () =>
      let rest := probeLoop p ty n (ptr+BitVec.ofNat 64 i*4096#64) (i+1)
      (ptr::rest.1,rest.2)

/-- `probe_checked` for elements of `elem` bytes. -/
def probeChecked (p : Perms 64) (ty : CheckedAccessType) (elem src count : Word) : Touched :=
  if count = 0#64 then ([],.ok ())
  else
    let size := elem*count
    let looped := probeLoop p ty ((4095#64+size)/4096#64).toNat src 0
    match looped.2 with
    | .error e => (looped.1,.error e)
    | .ok () =>
      let ptr := src+count*elem-elem
      (looped.1++[ptr],touch p ty ptr)

/-- The address of turn `i`. -/
def turn (src : Word) (i : ℕ) : Word := src+BitVec.ofNat 64 (4096*i.choose 2)

/-- How many turns the loop makes. -/
def turns (elem count : Word) : ℕ := ((4095#64+elem*count)/4096#64).toNat

/-- The bytes that a probe touches when none of them is refused. -/
def probed (elem src count : Word) : List Word :=
  if count = 0#64 then []
  else (List.range (turns elem count)).map (turn src)++[src+count*elem-elem]

section Triangular

lemma choose_two_succ (k : ℕ) : (k+1).choose 2 = k+k.choose 2 := by
  rw [Nat.choose_succ_succ' k 1,Nat.choose_one_right]

lemma le_choose_two (m : ℕ) : m+5 ≤ (m+4).choose 2 := by
  induction m with
  | zero => decide
  | succ m ih =>
    rw [choose_two_succ (m+4)]
    omega

lemma choose_two_small :
    ∀ i < 4, i.choose 2 = 0 ∨ (i = 2 ∧ i.choose 2 = 1) ∨ (i = 3 ∧ i.choose 2 = 3) := by
  decide

/-- Page `2^52 - 1` of the address space is met by going around it. -/
lemma choose_two_wraps : (1585831608557478 : ℕ).choose 2 % 2^52 = 2^52-1 := by
  rw [Nat.choose_two_right]
  decide +kernel

/-- From five pages on some turn is past the end. -/
lemma exists_turn_beyond {n : ℕ} (hlo : 5 ≤ n) (hhi : n < 2^52) :
    ∃ i < n, n ≤ i.choose 2 % 2^52 := by
  by_cases hbig : 2^51 < n
  · exact ⟨1585831608557478,by omega,by rw [choose_two_wraps]; omega⟩
  · have hlast : n ≤ (n-1).choose 2 := by
      have h := le_choose_two (n-5)
      rwa [show n-5+5 = n by omega,show n-5+4 = n-1 by omega] at h
    have hex : ∃ i : ℕ, n ≤ i.choose 2 := ⟨n-1,hlast⟩
    -- the first triangular number that is not below `n` is below `2 * n`
    have hle : Nat.find hex ≤ n-1 := Nat.find_min' hex hlast
    have hfound := Nat.find_spec hex
    cases hk : Nat.find hex with
    | zero =>
      rw [hk,Nat.choose_zero_succ] at hfound
      omega
    | succ k =>
      have hprev := Nat.find_min hex (m := k) (by omega)
      rw [hk] at hfound hle
      have hstep := choose_two_succ k
      exact ⟨k+1,by omega,by rw [Nat.mod_eq_of_lt (by omega)]; exact hfound⟩

end Triangular

section Accesses

variable {p : Perms 64} {ty : CheckedAccessType} {a : Word}

/-- The type's accesses to the byte are permitted. -/
def Granted (p : Perms 64) (ty : CheckedAccessType) (a : Word) : Prop :=
  p .read a = none ∧ (ty = .write → p .write a = none)

lemma accessByte_eq_ok {acc : Access} : accessByte p acc a = .ok () ↔ p acc a = none := by
  unfold accessByte
  cases p acc a <;> simp

lemma touch_eq_ok : touch p ty a = .ok () ↔ Granted p ty a := by
  unfold touch Granted
  rw [← accessByte_eq_ok,← accessByte_eq_ok]
  cases accessByte p .read a with
  | error e => simp [bind,Except.bind]
  | ok u => cases ty <;> simp [CheckedAccessType.doWriteback,bind,Except.bind,pure,Except.pure]

lemma turn_succ (src : Word) (i : ℕ) :
    turn src i+BitVec.ofNat 64 i*4096#64 = turn src (i+1) := by
  have hmul : BitVec.ofNat 64 i*4096#64 = BitVec.ofNat 64 (4096*i) := by
    rw [Nat.mul_comm,BitVec.ofNat_mul]
  rw [turn,turn,hmul,BitVec.add_assoc,← BitVec.ofNat_add,choose_two_succ,Nat.mul_add,
    Nat.add_comm (4096*i)]

/-- Touching in order, up to the first byte refused. -/
structure Touches (p : Perms 64) (ty : CheckedAccessType) (t : Touched) (l : List Word) : Prop where
  mem : ∀ a ∈ t.1, a ∈ l
  ok_iff : t.2 = .ok () ↔ ∀ a ∈ l, Granted p ty a
  all : t.2 = .ok () → t.1 = l

lemma probeLoop_touches (p : Perms 64) (ty : CheckedAccessType) (src : Word) (n i : ℕ) :
    Touches p ty (probeLoop p ty n (turn src i) i) ((List.range' i n).map (turn src)) := by
  induction n generalizing i with
  | zero => exact ⟨by simp [probeLoop],by simp [probeLoop],by simp [probeLoop]⟩
  | succ n ih =>
    have hrest := ih (i+1)
    rw [probeLoop,List.range'_succ,List.map_cons]
    cases ht : touch p ty (turn src i) with
    | error e =>
      refine ⟨by simp,iff_of_false (by simp) fun h => ?_,by simp⟩
      have hgrant := touch_eq_ok.mpr (h _ List.mem_cons_self)
      rw [ht] at hgrant
      cases hgrant
    | ok u =>
      dsimp only
      rw [turn_succ]
      refine ⟨fun a ha => ?_,?_,fun h => by rw [hrest.all h]⟩
      · exact (List.mem_cons.mp ha).elim (fun h => h ▸ List.mem_cons_self)
          fun h => List.mem_cons_of_mem _ (hrest.mem a h)
      · rw [List.forall_mem_cons]
        exact hrest.ok_iff.trans (iff_and_self.mpr fun _ => touch_eq_ok.mp ht)

/-- A probe touches its bytes in order and succeeds when all of them are granted. -/
lemma probeChecked_touches (p : Perms 64) (ty : CheckedAccessType) (elem src count : Word) :
    Touches p ty (probeChecked p ty elem src count) (probed elem src count) := by
  unfold probeChecked probed
  by_cases hc : count = 0#64
  · rw [if_pos hc,if_pos hc]
    exact ⟨by simp,by simp,by simp⟩
  · rw [if_neg hc,if_neg hc]
    have hstart : turn src 0 = src := by simp [turn]
    have hloop := probeLoop_touches p ty src (turns elem count) 0
    rw [hstart,← List.range_eq_range'] at hloop
    unfold turns at *
    dsimp only
    cases hl : (probeLoop p ty ((4095#64+elem*count)/4096#64).toNat src 0).2 with
    | error e =>
      have hno : ¬ ∀ a ∈ (List.range ((4095#64+elem*count)/4096#64).toNat).map (turn src),
          Granted p ty a := by
        rw [← hloop.ok_iff,hl]
        simp
      refine ⟨fun a ha => List.mem_append_left _ (hloop.mem a ha),
        iff_of_false (by simp) fun h => hno fun a ha => h a (List.mem_append_left _ ha),by simp⟩
    | ok u =>
      have hall := hloop.ok_iff.mp hl
      rw [hloop.all hl]
      refine ⟨fun a ha => ha,?_,fun _ => rfl⟩
      dsimp only
      rw [touch_eq_ok,List.forall_mem_append,List.forall_mem_singleton]
      exact ⟨fun h => ⟨hall,h⟩,And.right⟩

end Accesses

/-- Permissions that are the same all over a page. -/
def PerPage (p : Perms 64) : Prop :=
  ∀ acc a b, a.toNat/4096 = b.toNat/4096 → p acc a = p acc b

/-- `[src, src + count * size_of::<T>())`. -/
def InSlice (elem src count a : Word) : Prop :=
  src.toNat ≤ a.toNat ∧ a.toNat < src.toNat+count.toNat*elem.toNat

/-- The probe keeps to the slice and, when it succeeds, has been on every page of it, so that the
whole slice is open to the accesses of the type. -/
structure ProbesSlice (p : Perms 64) (ty : CheckedAccessType) (elem src count : Word) : Prop where
  inside : ∀ a ∈ (probeChecked p ty elem src count).1, InSlice elem src count a
  pages : (probeChecked p ty elem src count).2 = .ok () → ∀ x, InSlice elem src count x →
    ∃ a ∈ (probeChecked p ty elem src count).1, a.toNat/4096 = x.toNat/4096
  readable : (probeChecked p ty elem src count).2 = .ok () →
    p.Allows .read src (count.toNat*elem.toNat)
  writable : (probeChecked p ty elem src count).2 = .ok () → ty = .write →
    p.Allows .write src (count.toNat*elem.toNat)

/-- The shapes of a slice that the probe gets right: it is on at most two pages, or on three and
longer than two, with its last element starting on the last page; or it is on four, longer than
three, and its last element starts on the third. -/
def Reached (elem src count : Word) : Prop :=
  let first := src.toNat/4096
  let last := (src.toNat+count.toNat*elem.toNat-1)/4096
  let start := (src.toNat+(count.toNat-1)*elem.toNat)/4096
  0 < elem.toNat ∧
    (last ≤ first+1 ∧ start = last ∨
      last = first+2 ∧ 8192 < count.toNat*elem.toNat ∧ start = last ∨
      last = first+3 ∧ 12288 < count.toNat*elem.toNat ∧ start = first+2)

section Slices

variable {elem src count : Word}

/-- The last element apart from the others. -/
lemma mul_eq_last_add {n : ℕ} (hn : 0 < n) (size : ℕ) : n*size = (n-1)*size+size := by
  rw [← Nat.succ_mul]
  congr 1
  omega

/-- The first byte of the last element. -/
lemma lastElement_toNat (hc : count ≠ 0#64)
    (hfits : src.toNat+count.toNat*elem.toNat ≤ 2^64) :
    (src+count*elem-elem).toNat = src.toNat+(count.toNat-1)*elem.toNat := by
  have hpos : 0 < count.toNat := Nat.pos_of_ne_zero fun h => hc (BitVec.eq_of_toNat_eq h)
  have hsrc := src.isLt
  have hsplit := mul_eq_last_add hpos elem.toNat
  have hlt : src.toNat+(count.toNat-1)*elem.toNat < 2^64 := by
    cases Nat.eq_zero_or_pos elem.toNat with
    | inl h0 => rw [h0]; omega
    | inr hpos => omega
  have heq : src+count*elem-elem = src+BitVec.ofNat 64 ((count.toNat-1)*elem.toNat) := by
    have hcount : count*elem = BitVec.ofNat 64 ((count.toNat-1)*elem.toNat)+elem := by
      apply BitVec.eq_of_toNat_eq
      rw [BitVec.toNat_mul,BitVec.toNat_add,BitVec.toNat_ofNat,Nat.mod_add_mod,hsplit]
    rw [hcount,← BitVec.add_assoc]
    exact add_sub_cancel_right _ elem
  rw [heq,add_ofNat_toNat hlt]

lemma turns_toNat (elem count : Word) :
    turns elem count = (4095+count.toNat*elem.toNat%2^64)%2^64/4096 := by
  rw [turns,BitVec.toNat_udiv,BitVec.toNat_add,BitVec.toNat_mul,Nat.mul_comm elem.toNat]
  rfl

lemma turns_eq (h : count.toNat*elem.toNat+4095 < 2^64) :
    turns elem count = (count.toNat*elem.toNat+4095)/4096 := by
  rw [turns_toNat]
  omega

lemma turns_wrapped (h : 2^64 ≤ count.toNat*elem.toNat+4095)
    (hle : count.toNat*elem.toNat ≤ 2^64) : turns elem count = 0 := by
  rw [turns_toNat]
  omega

lemma mem_probed (hc : count ≠ 0#64) {a : Word} :
    a ∈ probed elem src count ↔
      (∃ i < turns elem count, turn src i = a) ∨ a = src+count*elem-elem := by
  rw [probed,if_neg hc]
  simp [List.mem_append,List.mem_map,List.mem_range]

/-- A slice of five pages or more is left. -/
lemma exists_probed_outside (hc : count ≠ 0#64)
    (hfits : src.toNat+count.toNat*elem.toNat ≤ 2^64) (hn : 5 ≤ turns elem count) :
    ∃ a ∈ probed elem src count, ¬ InSlice elem src count a := by
  have hsum : count.toNat*elem.toNat+4095 < 2^64 := by
    by_contra hwrap
    rw [turns_wrapped (by omega) (by omega)] at hn
    omega
  rw [turns_eq hsum] at hn
  obtain ⟨i,hi,hbeyond⟩ := exists_turn_beyond hn (by omega)
  refine ⟨turn src i,(mem_probed hc).mpr (.inl ⟨i,by rw [turns_eq hsum]; exact hi,rfl⟩),?_⟩
  intro hin
  have hlt := (sub_toNat_lt_iff hfits _).mpr hin
  rw [turn,add_sub_cancel_left src,BitVec.toNat_ofNat] at hlt
  omega

/-- In a slice of at most four pages' length every turn is inside. -/
lemma turn_small (hfits : src.toNat+count.toNat*elem.toNat ≤ 2^64)
    (hsmall : count.toNat*elem.toNat ≤ 16384) {i : ℕ}
    (hi : i < (count.toNat*elem.toNat+4095)/4096) :
    4096*i.choose 2 < count.toNat*elem.toNat ∧
      (turn src i).toNat = src.toNat+4096*i.choose 2 := by
  have hchoose := choose_two_small i (by omega)
  have hlt : 4096*i.choose 2 < count.toNat*elem.toNat := by omega
  exact ⟨hlt,add_ofNat_toNat (by omega)⟩

/-- The pages that a probe of at most four pages' length is on. -/
lemma probed_page_iff (hc : count ≠ 0#64) (hfits : src.toNat+count.toNat*elem.toNat ≤ 2^64)
    (hsmall : count.toNat*elem.toNat ≤ 16384) (q : ℕ) :
    (∃ a ∈ probed elem src count, a.toNat/4096 = q) ↔
      (∃ i < (count.toNat*elem.toNat+4095)/4096, src.toNat/4096+i.choose 2 = q) ∨
        (src.toNat+(count.toNat-1)*elem.toNat)/4096 = q := by
  have hpage : ∀ i < (count.toNat*elem.toNat+4095)/4096,
      (turn src i).toNat/4096 = src.toNat/4096+i.choose 2 := fun i hi => by
    rw [(turn_small hfits hsmall hi).2]
    omega
  simp only [mem_probed hc,turns_eq (show count.toNat*elem.toNat+4095 < 2^64 by omega)]
  constructor
  · rintro ⟨a,⟨i,hi,rfl⟩ | rfl,hq⟩
    · exact .inl ⟨i,hi,(hpage i hi).symm.trans hq⟩
    · rw [lastElement_toNat hc hfits] at hq
      exact .inr hq
  · rintro (⟨i,hi,hq⟩ | hq)
    · exact ⟨_,.inl ⟨i,hi,rfl⟩,(hpage i hi).trans hq⟩
    · exact ⟨_,.inr rfl,by rw [lastElement_toNat hc hfits]; exact hq⟩

/-- The probe's bytes are in the slice. -/
def ProbedInside (elem src count : Word) : Prop :=
  ∀ a ∈ probed elem src count, InSlice elem src count a

/-- The probe's bytes are on every page of the slice. -/
def ProbedPages (elem src count : Word) : Prop :=
  ∀ x, InSlice elem src count x → ∃ a ∈ probed elem src count, a.toNat/4096 = x.toNat/4096

lemma Reached.small (hc : count ≠ 0#64) (h : Reached elem src count) :
    0 < count.toNat*elem.toNat ∧ count.toNat*elem.toNat ≤ 16384 := by
  have hcount : 0 < count.toNat := Nat.pos_of_ne_zero fun h => hc (BitVec.eq_of_toNat_eq h)
  have hpos := Nat.mul_pos hcount h.1
  refine ⟨hpos,?_⟩
  obtain ⟨-,h⟩ := h
  omega

lemma Reached.inside (hc : count ≠ 0#64) (hfits : src.toNat+count.toNat*elem.toNat ≤ 2^64)
    (h : Reached elem src count) : ProbedInside elem src count := by
  obtain ⟨hpos,hsmall⟩ := h.small hc
  intro a ha
  have hcount : 0 < count.toNat := Nat.pos_of_mul_pos_right hpos
  have hsplit := mul_eq_last_add hcount elem.toNat
  rw [mem_probed hc,turns_eq (by omega)] at ha
  cases ha with
  | inl hturn =>
    obtain ⟨i,hi,rfl⟩ := hturn
    obtain ⟨hlt,haddr⟩ := turn_small hfits hsmall hi
    rw [InSlice,haddr]
    omega
  | inr hlast =>
    have helem := h.1
    rw [hlast,InSlice,lastElement_toNat hc hfits]
    omega

lemma Reached.pages (hc : count ≠ 0#64) (hfits : src.toNat+count.toNat*elem.toNat ≤ 2^64)
    (h : Reached elem src count) : ProbedPages elem src count := by
  obtain ⟨hpos,hsmall⟩ := h.small hc
  intro x hx
  rw [probed_page_iff hc hfits hsmall]
  obtain ⟨hlo,hhi⟩ := hx
  obtain ⟨-,h⟩ := h
  -- the page of `x` is one of the first four
  have hcases : x.toNat/4096 = src.toNat/4096 ∨ x.toNat/4096 = src.toNat/4096+1 ∨
      x.toNat/4096 = src.toNat/4096+2 ∨ x.toNat/4096 = src.toNat/4096+3 := by omega
  rcases hcases with hx | hx | hx | hx
  · exact .inl ⟨0,by omega,by rw [hx]; rfl⟩
  · by_cases hlast : (src.toNat+(count.toNat-1)*elem.toNat)/4096 = src.toNat/4096+1
    · exact .inr (hlast.trans hx.symm)
    · exact .inl ⟨2,by omega,by rw [hx]; rfl⟩
  · exact .inr (by omega)
  · exact .inl ⟨3,by omega,by rw [hx]; rfl⟩

/-- A probe whose count of pages has wrapped touches only the last element, on one page. -/
lemma not_probedPages_of_wrapped (hc : count ≠ 0#64)
    (hfits : src.toNat+count.toNat*elem.toNat ≤ 2^64)
    (hwrap : 2^64 ≤ count.toNat*elem.toNat+4095) : ¬ ProbedPages elem src count := by
  intro hpages
  have hone : ∀ x, InSlice elem src count x →
      (src.toNat+(count.toNat-1)*elem.toNat)/4096 = x.toNat/4096 := by
    intro x hx
    obtain ⟨a,ha,hq⟩ := hpages x hx
    rw [mem_probed hc,turns_wrapped hwrap (by omega)] at ha
    cases ha with
    | inl h => obtain ⟨i,hi,-⟩ := h; omega
    | inr h => rwa [h,lastElement_toNat hc hfits] at hq
  have hfar : (src+BitVec.ofNat 64 4096).toNat = src.toNat+4096 := add_ofNat_toNat (by omega)
  have hnear := hone src ⟨le_rfl,by omega⟩
  have hnext := hone (src+BitVec.ofNat 64 4096) ⟨by omega,by omega⟩
  omega

lemma small_of_probed (hc : count ≠ 0#64) (hfits : src.toNat+count.toNat*elem.toNat ≤ 2^64)
    (hin : ProbedInside elem src count) (hpages : ProbedPages elem src count) :
    count.toNat*elem.toNat ≤ 16384 := by
  have hturns : turns elem count < 5 := by
    by_contra hn
    obtain ⟨a,ha,hout⟩ := exists_probed_outside hc hfits (by omega)
    exact hout (hin a ha)
  by_cases hwrap : 2^64 ≤ count.toNat*elem.toNat+4095
  · exact absurd hpages (not_probedPages_of_wrapped hc hfits hwrap)
  · rw [turns_eq (by omega)] at hturns
    omega

/-- The pages of a slice of at most four pages' length that its probe can account for. -/
lemma ProbedPages.page (hpages : ProbedPages elem src count) (hc : count ≠ 0#64)
    (hfits : src.toNat+count.toNat*elem.toNat ≤ 2^64) (hpos : 0 < count.toNat*elem.toNat)
    (hsmall : count.toNat*elem.toNat ≤ 16384) (q : ℕ) (hlo : src.toNat/4096 ≤ q)
    (hhi : q ≤ (src.toNat+count.toNat*elem.toNat-1)/4096) :
    q = src.toNat/4096 ∨ (q = src.toNat/4096+1 ∧ 8192 < count.toNat*elem.toNat) ∨
      (q = src.toNat/4096+3 ∧ 12288 < count.toNat*elem.toNat) ∨
      q = (src.toNat+(count.toNat-1)*elem.toNat)/4096 := by
  have hsrc := src.isLt
  -- the first byte of the slice on the page
  have haddr : (BitVec.ofNat 64 (max src.toNat (4096*q))).toNat = max src.toNat (4096*q) := by
    rw [BitVec.toNat_ofNat]
    omega
  have htouched := hpages (BitVec.ofNat 64 (max src.toNat (4096*q))) ⟨by omega,by omega⟩
  rw [probed_page_iff hc hfits hsmall,haddr] at htouched
  cases htouched with
  | inl hturn =>
    obtain ⟨i,hi,hq⟩ := hturn
    have hchoose := choose_two_small i (by omega)
    omega
  | inr hlast => omega

lemma reached_of_probed (hc : count ≠ 0#64) (hfits : src.toNat+count.toNat*elem.toNat ≤ 2^64)
    (hin : ProbedInside elem src count) (hpages : ProbedPages elem src count) :
    Reached elem src count := by
  have hlastin := hin _ ((mem_probed hc).mpr (.inr rfl))
  rw [InSlice,lastElement_toNat hc hfits] at hlastin
  have helem : 0 < elem.toNat := by
    refine Nat.pos_of_ne_zero fun h0 => ?_
    rw [h0,Nat.mul_zero] at hlastin
    omega
  have hsmall := small_of_probed hc hfits hin hpages
  have hpage := hpages.page hc hfits (by omega) hsmall
  have h₁ := hpage (src.toNat/4096+1)
  have h₂ := hpage (src.toNat/4096+2)
  have h₃ := hpage (src.toNat/4096+3)
  have h₄ := hpage (src.toNat/4096+4)
  refine ⟨helem,?_⟩
  omega

/-- A probe that got through has been granted its bytes, so by pages it was granted the slice. -/
lemma granted_of_pages {p : Perms 64} {ty : CheckedAccessType} (hp : PerPage p)
    (hfits : src.toNat+count.toNat*elem.toNat ≤ 2^64) (hpages : ProbedPages elem src count)
    (hall : ∀ a ∈ probed elem src count, Granted p ty a) {i : ℕ}
    (hi : i < count.toNat*elem.toNat) : Granted p ty (src+BitVec.ofNat 64 i) := by
  have haddr : (src+BitVec.ofNat 64 i).toNat = src.toNat+i := add_ofNat_toNat (by omega)
  obtain ⟨a,ha,hq⟩ := hpages (src+BitVec.ofNat 64 i) ⟨by omega,by omega⟩
  obtain ⟨hread,hwrite⟩ := hall a ha
  exact ⟨(hp _ _ _ hq).symm.trans hread,fun hty => (hp _ _ _ hq).symm.trans (hwrite hty)⟩

/-- A probe is right about its slice, for all permissions by pages, exactly when the slice has one of
the shapes that its turns reach. -/
theorem probe_slice_iff (ty : CheckedAccessType) (hc : count ≠ 0#64)
    (hfits : src.toNat+count.toNat*elem.toNat ≤ 2^64) :
    (∀ p, PerPage p → ProbesSlice p ty elem src count) ↔ Reached elem src count := by
  constructor
  · intro h
    have hopen := h (fun _ _ => none) fun _ _ _ _ => rfl
    have htouch := probeChecked_touches (fun _ _ => none) ty elem src count
    have hok := htouch.ok_iff.mpr fun a _ => ⟨rfl,fun _ => rfl⟩
    refine reached_of_probed hc hfits ?_ fun x hx => ?_
    · rw [ProbedInside,← htouch.all hok]
      exact hopen.inside
    · rw [← htouch.all hok]
      exact hopen.pages hok x hx
  · intro h p hp
    have htouch := probeChecked_touches p ty elem src count
    have hpages := h.pages hc hfits
    refine ⟨fun a ha => h.inside hc hfits a (htouch.mem a ha),fun hok x hx => ?_,
      fun hok i hi => ?_,fun hok hty i hi => ?_⟩
    · rw [htouch.all hok]
      exact hpages x hx
    · exact (granted_of_pages hp hfits hpages (htouch.ok_iff.mp hok) hi).1
    · exact (granted_of_pages hp hfits hpages (htouch.ok_iff.mp hok) hi).2 hty

end Slices

/-- Three words across the end of a page. -/
theorem probe_slice_iff_three :
    Reached 8#64 0x1ff0#64 3#64 ∧
      ∀ p, PerPage p → ProbesSlice p .write 8#64 0x1ff0#64 3#64 := by
  have hreached : Reached 8#64 0x1ff0#64 3#64 := by
    unfold Reached
    decide
  exact ⟨hreached,(probe_slice_iff .write (by decide) (by decide)).mpr hreached⟩

/-- In a slice of five pages the third is missed and a byte of the second page after it is
touched. -/
theorem probe_leaves_slice :
    probeChecked (fun _ _ => none) .read 4096#64 0x10000#64 5#64 =
        ([0x10000#64,0x10000#64,0x11000#64,0x13000#64,0x16000#64,0x14000#64],.ok ()) ∧
      ¬ InSlice 4096#64 0x10000#64 5#64 0x16000#64 ∧
      ¬ ∀ p, PerPage p → ProbesSlice p .read 4096#64 0x10000#64 5#64 := by
  have hrun : probeChecked (fun _ _ => none) .read 4096#64 0x10000#64 5#64 =
      ([0x10000#64,0x10000#64,0x11000#64,0x13000#64,0x16000#64,0x14000#64],.ok ()) := by
    decide +kernel
  have hout : ¬ InSlice 4096#64 0x10000#64 5#64 0x16000#64 := by
    unfold InSlice
    decide
  refine ⟨hrun,hout,fun h => hout ((h (fun _ _ => none) fun _ _ _ _ => rfl).inside _ ?_)⟩
  rw [hrun]
  simp

end WinterLily.Access
