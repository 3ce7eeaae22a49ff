import WinterLily.Alloc.Mmap
import Mathlib.Data.List.Pairwise

/-! `malloc` and `free` of `wl-impl/src/libc/libc_defs.rs` over the global allocator. Two words in
front of each block hold its size and alignment; `free` rebuilds from them the base and the layout
that `malloc` asked for. -/
namespace WinterLily.Alloc
open WinterLily.Memory WinterLily.Transition

/-- `Layout::from_size_align`. -/
def Layout.fromSizeAlign (size align : BitVec 64) : Option Layout :=
  if h : Align.IsPow2 align ∧ size.toNat+(align.toNat-1) < 2^63 then
    some ⟨size.toNat,align.toNat,by
      obtain ⟨k,hk,he⟩ := h.1
      exact ⟨k,by rw [he,Align.two_pow_toNat hk]⟩,h.2⟩
  else none

lemma fromSizeAlign_eq_some {size align : BitVec 64} {l : Layout}
    (h : Layout.fromSizeAlign size align = some l) :
    Align.IsPow2 align ∧ l.size = size.toNat ∧ l.align = align.toNat := by
  unfold Layout.fromSizeAlign at h
  split_ifs at h with hok
  cases h
  exact ⟨hok.1,rfl,rfl⟩

/-- `usize::isolate_lowest_one`. -/
def isolateLowestOne (n : BitVec 64) : BitVec 64 := n &&& -n

/-- `size_of::<max_align_t>()`: the struct has an alignment but no fields. -/
def sizeOfMaxAlign : BitVec 64 := 0#64

/-- `2 * size_of::<usize>()`. -/
def headerSize : BitVec 64 := 16#64

def mallocAlign (size : BitVec 64) : BitVec 64 :=
  if isolateLowestOne size < sizeOfMaxAlign then sizeOfMaxAlign else isolateLowestOne size

/-- What `malloc` returns and leaves, and the layout it called `alloc` with, if it did. -/
structure Malloced where
  ptr : BitVec 64
  mem : Mem 64
  asked : Option Layout

/-- `malloc`; `reply` is what `alloc` returns when it is called. Null is 0. -/
def malloc (size reply : BitVec 64) (m : Mem 64) : Malloced :=
  if size = 0#64 then ⟨0#64,m,none⟩
  else
    let align := mallocAlign size
    match Layout.fromSizeAlign (size+headerSize) align with
    | none => ⟨0#64,m,none⟩
    | some layout =>
      if reply = 0#64 then ⟨0#64,m,some layout⟩
      else
        let m := m.setWord reply size
        let m := m.setWord (reply+8#64) align
        ⟨reply+headerSize,m,some layout⟩

/-- The panic of `free`, with the values its message shows. -/
structure HeaderPanic where
  ptr : BitVec 64
  size : BitVec 64
  align : BitVec 64
  deriving DecidableEq, Repr

/-- The call to `dealloc` that `free` makes. -/
def free (ptr : BitVec 64) (m : Mem 64) : Except HeaderPanic (Option (BitVec 64 × Layout)) :=
  if ptr = 0#64 then .ok none
  else
    let base := ptr-headerSize
    let size := m.word base
    let align := m.word (base+8#64)
    match Layout.fromSizeAlign (size+headerSize) align with
    | none => .error ⟨ptr,size,align⟩
    | some layout => .ok (some (Align.roundDown base align,layout))

/-- A block of the program, with the call to `alloc` that served it. -/
structure Chunk where
  ptr : BitVec 64
  size : BitVec 64
  base : BitVec 64
  layout : Layout
  deriving DecidableEq

/-- The address is in the memory the allocator gave for the block. -/
def Chunk.Has (c : Chunk) (a : BitVec 64) : Prop :=
  c.base.toNat ≤ a.toNat ∧ a.toNat < c.base.toNat+c.layout.size

/-- The address is in the block that the program got. -/
def Chunk.Inside (c : Chunk) (a : BitVec 64) : Prop :=
  c.ptr.toNat ≤ a.toNat ∧ a.toNat < c.ptr.toNat+c.size.toNat

instance (c : Chunk) (a : BitVec 64) : Decidable (c.Has a) := inferInstanceAs (Decidable (_ ∧ _))
instance (c : Chunk) (a : BitVec 64) : Decidable (c.Inside a) := inferInstanceAs (Decidable (_ ∧ _))

/-- The memory of the two blocks is disjoint. -/
def Chunk.Apart (c d : Chunk) : Prop :=
  c.base.toNat+c.layout.size ≤ d.base.toNat ∨ d.base.toNat+d.layout.size ≤ c.base.toNat

instance (c d : Chunk) : Decidable (c.Apart d) := inferInstanceAs (Decidable (_ ∨ _))

structure Heap where
  mem : Mem 64
  live : List Chunk

/-- The contract of the allocator: what it returns is aligned, does not wrap and is disjoint from
the blocks in use. -/
def Heap.Serves (s : Heap) (c : Chunk) : Prop :=
  c.layout.align ∣ c.base.toNat ∧ c.base.toNat+c.layout.size ≤ 2^64 ∧ ∀ d ∈ s.live, c.Apart d

instance (s : Heap) (c : Chunk) : Decidable (s.Serves c) := inferInstanceAs (Decidable (_ ∧ _ ∧ _))

/-- One thing that happens: a call, a store of the program into a block, or a change of some byte
that belongs to none, as the allocator and everybody else may make. -/
inductive HeapEvent
  | malloc (size reply : BitVec 64)
  | free (ptr : BitVec 64)
  | store (a : BitVec 64) (v : Byte)
  | other (a : BitVec 64) (v : Byte)

def heapStep (s : Heap) : HeapEvent → Option Heap
  | .malloc size reply =>
    let r := malloc size reply s.mem
    match r.asked with
    | none => some { s with mem := r.mem }
    | some layout =>
      if reply = 0#64 then some { s with mem := r.mem }
      else if s.Serves ⟨r.ptr,size,reply,layout⟩ then
        some ⟨r.mem,⟨r.ptr,size,reply,layout⟩::s.live⟩
      else none
  | .free ptr =>
    match s.live.find? fun c => c.ptr = ptr with
    | none => none
    | some c => some { s with live := s.live.erase c }
  | .store a v =>
    if ∃ c ∈ s.live, c.Inside a then some { s with mem := Function.update s.mem a v } else none
  | .other a v =>
    if ∀ c ∈ s.live, ¬ c.Has a then some { s with mem := Function.update s.mem a v } else none

/-- The size of a request and its header fit a `usize`. -/
def HeapEvent.Fits : HeapEvent → Prop
  | .malloc size _ => size.toNat+16 < 2^64
  | _ => True

/-- What is known of a block in use. -/
structure Chunk.Sound (m : Mem 64) (c : Chunk) : Prop where
  ptr : c.ptr = c.base+headerSize
  size : c.layout.size = c.size.toNat+16
  nonempty : 0 < c.size.toNat
  layout : Layout.fromSizeAlign (c.size+headerSize) (mallocAlign c.size) = some c.layout
  aligned : c.layout.align ∣ c.base.toNat
  bound : c.base.toNat+c.layout.size ≤ 2^64
  sizeWord : m.word c.base = c.size
  alignWord : m.word (c.base+8#64) = mallocAlign c.size

namespace Chunk

variable {m m' : Mem 64} {c d : Chunk}

/-- The offsets inside the memory of a block do not wrap. -/
lemma Sound.offset (h : c.Sound m) {i : ℕ} (hi : i < c.layout.size) :
    (c.base+BitVec.ofNat 64 i).toNat = c.base.toNat+i :=
  add_ofNat_toNat (by have := h.bound; omega)

/-- Only the header matters. -/
lemma Sound.congr (h : c.Sound m)
    (hm : ∀ a : BitVec 64, c.base.toNat ≤ a.toNat → a.toNat < c.base.toNat+16 → m' a = m a) :
    c.Sound m' := by
  have hbyte : ∀ i < 16, m' (c.base+BitVec.ofNat 64 i) = m (c.base+BitVec.ofNat 64 i) := by
    intro i hi
    have hoff := h.offset (i := i) (by rw [h.size]; omega)
    exact hm _ (by omega) (by omega)
  refine { h with sizeWord := ?_, alignWord := ?_ }
  · rw [← h.sizeWord]
    exact word_congr fun i hi => hbyte i (by omega)
  · rw [← h.alignWord]
    refine word_congr fun i hi => ?_
    have hadd : c.base+8#64+BitVec.ofNat 64 i = c.base+BitVec.ofNat 64 (8+i) := by
      rw [BitVec.add_assoc,BitVec.ofNat_add]
    rw [hadd]
    exact hbyte (8+i) (by omega)

/-- Freeing a block gives back what was asked for. -/
lemma Sound.free (h : c.Sound m) : Alloc.free c.ptr m = .ok (some (c.base,c.layout)) := by
  have hbound := h.bound
  have hsize := h.size
  have hne : c.ptr ≠ 0#64 := by
    intro hc
    have hptr : c.ptr.toNat = c.base.toNat+16 := by
      rw [h.ptr]
      exact h.offset (i := 16) (by have := h.nonempty; omega)
    rw [hc] at hptr
    exact absurd hptr (by simp)
  have hbase : c.ptr-headerSize = c.base := by
    rw [h.ptr]
    exact add_sub_cancel_right c.base headerSize
  obtain ⟨hpow,-,halign⟩ := fromSizeAlign_eq_some h.layout
  have hround : Align.roundDown c.base (mallocAlign c.size) = c.base := by
    apply BitVec.eq_of_toNat_eq
    rw [Align.roundDown_toNat hpow,← halign,Align.down]
    exact Nat.div_mul_cancel h.aligned
  unfold Alloc.free
  simp only [if_neg hne,hbase,h.sizeWord,h.alignWord,h.layout,hround]

end Chunk

section Header

variable {m : Mem 64} {base size align : BitVec 64}

/-- The memory after the two header words were written. -/
def writeHeader (m : Mem 64) (base size align : BitVec 64) : Mem 64 :=
  (m.setWord base size).setWord (base+8#64) align

lemma writeHeader_of_not_mem (h : base.toNat+16 ≤ 2^64) {a : BitVec 64}
    (ha : ¬ (base.toNat ≤ a.toNat ∧ a.toNat < base.toNat+16)) :
    writeHeader m base size align a = m a := by
  have hnext : (base+8#64).toNat = base.toNat+8 := add_ofNat_toNat (i := 8) (by omega)
  unfold writeHeader Mem.setWord
  rw [fill_apply _ _ (by omega),if_neg (by omega),fill_apply _ _ (by omega),if_neg (by omega)]

lemma writeHeader_sizeWord : (writeHeader m base size align).word base = size := by
  have hfirst : (writeHeader m base size align).word base = (m.setWord base size).word base := by
    refine word_congr fun i hi => ?_
    have hi' : (BitVec.ofNat 64 i).toNat = i := by
      rw [BitVec.toNat_ofNat]
      exact Nat.mod_eq_of_lt (by omega)
    unfold writeHeader
    rw [Mem.setWord,fill_add_of_not_mem _ (by decide)]
    rw [hi']
    change ¬ (8 ≤ i ∧ i < 8+8)
    omega
  rw [hfirst]
  exact word_setWord (by decide) m base size

lemma writeHeader_alignWord : (writeHeader m base size align).word (base+8#64) = align :=
  word_setWord (by decide) _ _ align

end Header

/-- What a `malloc` can do: fail and leave everything as it is, or put a header in front of a new
block. -/
lemma heapStep_malloc {s t : Heap} {size reply : BitVec 64}
    (h : heapStep s (.malloc size reply) = some t) :
    t = s ∨ ∃ layout, size ≠ 0#64 ∧
      Layout.fromSizeAlign (size+headerSize) (mallocAlign size) = some layout ∧
      s.Serves ⟨reply+headerSize,size,reply,layout⟩ ∧
      t = ⟨writeHeader s.mem reply size (mallocAlign size),
        ⟨reply+headerSize,size,reply,layout⟩::s.live⟩ := by
  by_cases hsize : size = 0#64
  · simp only [heapStep,malloc,if_pos hsize] at h
    exact .inl (Option.some.inj h).symm
  · cases hl : Layout.fromSizeAlign (size+headerSize) (mallocAlign size) with
    | none =>
      simp only [heapStep,malloc,if_neg hsize,hl] at h
      exact .inl (Option.some.inj h).symm
    | some layout =>
      by_cases hreply : reply = 0#64
      · simp only [heapStep,malloc,if_neg hsize,hl,if_pos hreply] at h
        exact .inl (Option.some.inj h).symm
      · simp only [heapStep,malloc,if_neg hsize,hl,if_neg hreply] at h
        split_ifs at h with hserves
        exact .inr ⟨layout,hsize,rfl,hserves,(Option.some.inj h).symm⟩

structure HeapInv (s : Heap) : Prop where
  sound : ∀ c ∈ s.live, c.Sound s.mem
  apart : s.live.Pairwise Chunk.Apart

instance : Std.Symm Chunk.Apart := ⟨fun _ _ => Or.symm⟩

/-- The block a `malloc` has just served. -/
lemma new_sound {size reply : BitVec 64} {layout : Layout} (m : Mem 64) (hfits : size.toNat+16 < 2^64)
    (hsize : size ≠ 0#64)
    (hlayout : Layout.fromSizeAlign (size+headerSize) (mallocAlign size) = some layout)
    (halign : layout.align ∣ reply.toNat) (hbound : reply.toNat+layout.size ≤ 2^64) :
    Chunk.Sound (writeHeader m reply size (mallocAlign size))
      ⟨reply+headerSize,size,reply,layout⟩ := by
  obtain ⟨-,hls,-⟩ := fromSizeAlign_eq_some hlayout
  have hadd : (size+headerSize).toNat = size.toNat+16 := add_ofNat_toNat (i := 16) hfits
  have hpos : 0 < size.toNat := by
    refine Nat.pos_of_ne_zero fun hz => hsize (BitVec.eq_of_toNat_eq hz)
  exact ⟨rfl,hls.trans hadd,hpos,hlayout,halign,hbound,writeHeader_sizeWord,writeHeader_alignWord⟩

lemma HeapInv.malloc {s t : Heap} {size reply : BitVec 64} (hs : HeapInv s)
    (hfits : size.toNat+16 < 2^64) (h : heapStep s (.malloc size reply) = some t) : HeapInv t := by
  obtain rfl | ⟨layout,hsize,hlayout,⟨halign,hbound,hdisjoint⟩,rfl⟩ := heapStep_malloc h
  · exact hs
  · have hnew := new_sound s.mem hfits hsize hlayout halign hbound
    refine ⟨fun c hc => ?_,List.Pairwise.cons hdisjoint hs.apart⟩
    cases List.mem_cons.mp hc with
    | inl hc =>
      rw [hc]
      exact hnew
    | inr hc =>
      have hsound := hs.sound c hc
      have hls := hnew.size
      have hcs := hsound.size
      have hap := hdisjoint c hc
      refine hsound.congr fun a hlo hhi => writeHeader_of_not_mem ?_ ?_
      · dsimp only at hls hbound
        omega
      · unfold Chunk.Apart at hap
        dsimp only at hls hap
        omega

/-- A change of one byte that is in no header. -/
lemma HeapInv.update {s : Heap} (hs : HeapInv s) {a : BitVec 64} {v : Byte}
    (ha : ∀ c ∈ s.live, ¬ (c.base.toNat ≤ a.toNat ∧ a.toNat < c.base.toNat+16)) :
    HeapInv { s with mem := Function.update s.mem a v } := by
  refine ⟨fun c hc => (hs.sound c hc).congr fun b hlo hhi => ?_,hs.apart⟩
  refine Function.update_of_ne (fun hba => ?_) _ _
  rw [hba] at hlo hhi
  exact ha c hc ⟨hlo,hhi⟩

/-- A byte of a block is in no header. -/
lemma HeapInv.not_header {s : Heap} (hs : HeapInv s) {c d : Chunk} (hc : c ∈ s.live)
    (hd : d ∈ s.live) {a : BitVec 64} (ha : c.Inside a) :
    ¬ (d.base.toNat ≤ a.toNat ∧ a.toNat < d.base.toNat+16) := by
  have hsc := hs.sound c hc
  have hsd := hs.sound d hd
  have hptr : c.ptr.toNat = c.base.toNat+16 := by
    rw [hsc.ptr]
    exact hsc.offset (i := 16) (by have := hsc.nonempty; have := hsc.size; omega)
  have hcs := hsc.size
  have hds := hsd.size
  unfold Chunk.Inside at ha
  by_cases hcd : c = d
  · subst hcd
    omega
  · have hap := hs.apart.forall hc hd hcd
    unfold Chunk.Apart at hap
    omega

lemma heapInv_step {s t : Heap} {e : HeapEvent} (hs : HeapInv s) (he : e.Fits)
    (h : heapStep s e = some t) : HeapInv t := by
  cases e with
  | malloc size reply => exact hs.malloc he h
  | free ptr =>
    simp only [heapStep] at h
    split at h
    · cases h
    · cases h
      exact ⟨fun c hc => hs.sound c (List.mem_of_mem_erase hc),hs.apart.erase _⟩
  | store a v =>
    simp only [heapStep] at h
    split_ifs at h with hin
    cases h
    obtain ⟨c,hc,ha⟩ := hin
    exact hs.update fun d hd => hs.not_header hc hd ha
  | other a v =>
    simp only [heapStep] at h
    split_ifs at h with hout
    cases h
    refine hs.update fun c hc hmem => hout c hc ⟨hmem.1,?_⟩
    have := (hs.sound c hc).size
    omega

/-- The heap before the first call. -/
def Heap.initial (m : Mem 64) : Heap := ⟨m,[]⟩

/-- In every run, freeing a block in use hands the allocator the base and the layout with which it
was served. -/
theorem free_undoes_malloc (m : Mem 64) {es : List HeapEvent} {s : Heap} (hfits : ∀ e ∈ es, e.Fits)
    (h : run heapStep (.initial m) es = some s) :
    ∀ c ∈ s.live, free c.ptr s.mem = .ok (some (c.base,c.layout)) := by
  have hinit : HeapInv (.initial m) := ⟨by simp [Heap.initial],.nil⟩
  have hguard : Guarded heapStep (fun _ e => e.Fits) (.initial m) es :=
    guarded_of_mem (fun e he _ => hfits e he) _
  have halways := always_of_guarded (P := HeapInv) (fun s e t hs he ht => heapInv_step hs he ht)
    (fun _ hs => hs) hinit hguard
  exact fun c hc => ((halways.last h).sound c hc).free

/-- A request the allocator serves. -/
lemma heapStep_served {s : Heap} {size reply : BitVec 64} {layout : Layout} (hsize : size ≠ 0#64)
    (hreply : reply ≠ 0#64)
    (hlayout : Layout.fromSizeAlign (size+headerSize) (mallocAlign size) = some layout)
    (hserves : s.Serves ⟨reply+headerSize,size,reply,layout⟩) :
    heapStep s (.malloc size reply) = some ⟨writeHeader s.mem reply size (mallocAlign size),
      ⟨reply+headerSize,size,reply,layout⟩::s.live⟩ := by
  simp only [heapStep,malloc,if_neg hsize,hlayout,if_neg hreply,if_pos hserves,writeHeader]

lemma pow2_eight : ∃ k, 8 = 2^k := ⟨3,rfl⟩

/-- The layout of a block of 24 bytes. -/
def layout24 : Layout := ⟨40,8,pow2_eight,by decide⟩

/-- The layout of a block of one byte. -/
def layout1 : Layout := ⟨17,1,⟨0,rfl⟩,by decide⟩

/-- Two blocks, one of them at an odd address; the program writes to the other and frees it, and its
header is then overwritten. -/
theorem free_undoes_malloc_twoBlocks :
    ∃ s, run heapStep (.initial fun _ => 0#8)
        [.malloc 24#64 0x1000#64,.malloc 1#64 0x2001#64,.store 0x1010#64 7#8,.free 0x1010#64,
          .other 0x1000#64 255#8] = some s ∧
      free 0x2011#64 s.mem = .ok (some (0x2001#64,layout1)) := by
  have h24 : Layout.fromSizeAlign (24#64+headerSize) (mallocAlign 24#64) = some layout24 :=
    dif_pos ⟨⟨3,by decide,by decide⟩,by decide⟩
  have h1 : Layout.fromSizeAlign (1#64+headerSize) (mallocAlign 1#64) = some layout1 :=
    dif_pos ⟨⟨0,by decide,by decide⟩,by decide⟩
  let c24 : Chunk := ⟨0x1010#64,24#64,0x1000#64,layout24⟩
  let c1 : Chunk := ⟨0x2011#64,1#64,0x2001#64,layout1⟩
  let m24 := writeHeader (fun _ => 0#8) 0x1000#64 24#64 (mallocAlign 24#64)
  let m1 := writeHeader m24 0x2001#64 1#64 (mallocAlign 1#64)
  let m := Function.update (Function.update m1 0x1010#64 7#8) 0x1000#64 255#8
  have hrun : run heapStep (.initial fun _ => 0#8)
      [.malloc 24#64 0x1000#64,.malloc 1#64 0x2001#64,.store 0x1010#64 7#8,.free 0x1010#64,
        .other 0x1000#64 255#8] = some ⟨m,[c1]⟩ := by
    refine run_cons_of (t := ⟨m24,[c24]⟩) (heapStep_served (by decide) (by decide) h24 ?_) ?_
    · exact ⟨by decide,by decide,by simp [Heap.initial]⟩
    refine run_cons_of (t := ⟨m1,[c1,c24]⟩) (heapStep_served (by decide) (by decide) h1 ?_) ?_
    · exact ⟨by decide,by decide,by simp [Chunk.Apart,c24,layout24]⟩
    have hstore : ∃ c ∈ [c1,c24], c.Inside 0x1010#64 := ⟨c24,by simp,by decide⟩
    refine run_cons_of (t := ⟨Function.update m1 0x1010#64 7#8,[c1,c24]⟩)
      (by simp only [heapStep,if_pos hstore]) ?_
    refine run_cons_of (t := ⟨Function.update m1 0x1010#64 7#8,[c1]⟩) rfl ?_
    have hother : ∀ c ∈ [c1], ¬ c.Has 0x1000#64 := by simp [Chunk.Has,c1]
    exact run_cons_of (t := ⟨m,[c1]⟩) (by simp only [heapStep,if_pos hother,m]) rfl
  refine ⟨_,hrun,free_undoes_malloc _ ?_ hrun c1 (List.mem_singleton.mpr rfl)⟩
  simp [HeapEvent.Fits]

end WinterLily.Alloc
