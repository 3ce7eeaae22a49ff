import WinterLily.Alloc.Malloc
import Mathlib.Data.Nat.Factorization.Basic

/-! What `malloc` and `aligned_alloc` of `wl-impl/src/libc/libc_defs.rs` hand out, with an allocator
of which nothing is known but that its blocks have the size and alignment it was asked for. -/
namespace WinterLily.Alloc
open WinterLily.Memory

/-- What `alloc` may return: null, or a block that is aligned and does not wrap. -/
def Served (layout : Layout) (reply : BitVec 64) : Prop :=
  reply = 0#64 ∨ layout.align ∣ reply.toNat ∧ reply.toNat+layout.size ≤ 2^64

instance (layout : Layout) (reply : BitVec 64) : Decidable (Served layout reply) :=
  inferInstanceAs (Decidable (_ ∨ _))

/-- The address is in the block that was served at `base`. -/
def InBlock (base : BitVec 64) (layout : Layout) (a : BitVec 64) : Prop :=
  base.toNat ≤ a.toNat ∧ a.toNat < base.toNat+layout.size

instance (base : BitVec 64) (layout : Layout) (a : BitVec 64) : Decidable (InBlock base layout a) :=
  inferInstanceAs (Decidable (_ ∧ _))

section Malloc

variable {size reply : BitVec 64} {m : Mem 64} {layout : Layout}

/-- Null, or a pointer at a multiple of 16 with the header before it and the bytes after it in the
block. -/
def Malloced.Usable (r : Malloced) (size reply : BitVec 64) : Prop :=
  r.ptr = 0#64 ∨ ∃ layout, r.asked = some layout ∧ 16 ∣ r.ptr.toNat ∧
    reply.toNat+16 ≤ r.ptr.toNat ∧ r.ptr.toNat+size.toNat ≤ reply.toNat+layout.size

/-- `malloc` of `size` bytes gives usable memory whatever `alloc` returns. -/
def AlwaysUsable (size : BitVec 64) : Prop :=
  ∀ reply m, (∀ layout, (malloc size reply m).asked = some layout → Served layout reply) →
    (malloc size reply m).Usable size reply

/-- The alignment is the lowest bit of the size; `max_align_t` adds nothing to it. -/
lemma mallocAlign_eq (h : size ≠ 0#64) :
    ∃ k q, k < 64 ∧ size.toNat = 2^k*(2*q+1) ∧ mallocAlign size = BitVec.ofNat 64 (2^k) := by
  have hne : size.toNat ≠ 0 := fun hzero => h (BitVec.eq_of_toNat_eq hzero)
  obtain ⟨k,r,⟨q,rfl⟩,hkr⟩ := Nat.exists_eq_two_pow_mul_odd hne
  have hk : 2^k < 2^64 := by
    refine lt_of_le_of_lt ?_ size.isLt
    rw [hkr]
    exact Nat.le_mul_of_pos_right _ (Nat.succ_pos _)
  have hzero : ¬ isolateLowestOne size < sizeOfMaxAlign := BitVec.not_lt_zero
  refine ⟨k,q,(Nat.pow_lt_pow_iff_right (by decide)).mp hk,hkr,?_⟩
  rw [mallocAlign,if_neg hzero,isolateLowestOne,Align.and_neg_eq hkr]

lemma fromSizeAlign_none (size align : BitVec 64) (h : 2^63 ≤ size.toNat+(align.toNat-1)) :
    Layout.fromSizeAlign size align = none :=
  dif_neg fun hok => absurd hok.2 (Nat.not_lt.mpr h)

lemma fromSizeAlign_some (size : BitVec 64) {align : BitVec 64} (hpow : Align.IsPow2 align)
    (h : size.toNat+(align.toNat-1) < 2^63) :
    ∃ layout, Layout.fromSizeAlign size align = some layout ∧ layout.size = size.toNat ∧
      layout.align = align.toNat :=
  ⟨_,dif_pos ⟨hpow,h⟩,rfl,rfl⟩

lemma mallocAlign_spec (h : size ≠ 0#64) :
    ∃ k q, size.toNat = 2^k*(2*q+1) ∧ Align.IsPow2 (mallocAlign size) ∧
      (mallocAlign size).toNat = 2^k ∧ (isolateLowestOne size).toNat = 2^k := by
  obtain ⟨k,q,hk,hkq,halign⟩ := mallocAlign_eq h
  refine ⟨k,q,hkq,⟨k,hk,halign⟩,?_,?_⟩
  · rw [halign,Align.two_pow_toNat hk]
  · rw [isolateLowestOne,Align.and_neg_eq hkq,Align.two_pow_toNat hk]

lemma malloc_refused (m : Mem 64) (reply : BitVec 64)
    (h : Layout.fromSizeAlign (size+headerSize) (mallocAlign size) = none) :
    (malloc size reply m).ptr = 0#64 := by
  by_cases hsize : size = 0#64
  · rw [malloc,if_pos hsize]
  · simp only [malloc,if_neg hsize,h]

lemma malloc_served (reply : BitVec 64) (m : Mem 64) (hsize : size ≠ 0#64) (hreply : reply ≠ 0#64)
    (h : Layout.fromSizeAlign (size+headerSize) (mallocAlign size) = some layout) :
    (malloc size reply m).ptr = reply+headerSize ∧ (malloc size reply m).asked = some layout := by
  simp only [malloc,if_neg hsize,h,if_neg hreply,and_self]

lemma malloc_null (m : Mem 64) : (malloc size 0#64 m).ptr = 0#64 := by
  cases h : Layout.fromSizeAlign (size+headerSize) (mallocAlign size) with
  | none => exact malloc_refused m 0#64 h
  | some layout =>
    by_cases hsize : size = 0#64
    · rw [malloc,if_pos hsize]
    · simp only [malloc,if_neg hsize,h,if_true]

/-- A block at `2^i`, which is aligned for a smaller power, decides about the pointer. -/
lemma not_alwaysUsable {k i : ℕ} (hsize : size ≠ 0#64) (hki : k ≤ i) (hi : i < 63)
    (hlayout : Layout.fromSizeAlign (size+headerSize) (mallocAlign size) = some layout)
    (halign : layout.align = 2^k)
    (hbad : ¬ 16 ∣ 2^i ∨ layout.size < size.toNat+16) : ¬ AlwaysUsable size := by
  intro h
  have hbound := layout.bound
  have hpow : 2^i < 2^63 := Nat.pow_lt_pow_right (by decide) hi
  have hpos := Nat.two_pow_pos i
  have hreply : (BitVec.ofNat 64 (2^i)).toNat = 2^i := Align.two_pow_toNat (by omega)
  have hne : BitVec.ofNat 64 (2^i) ≠ 0#64 := by
    intro hzero
    rw [hzero] at hreply
    exact absurd hreply hpos.ne
  obtain ⟨hptr,hasked⟩ := malloc_served _ (fun _ => 0#8) hsize hne hlayout
  have hnat : (BitVec.ofNat 64 (2^i)+headerSize).toNat = (BitVec.ofNat 64 (2^i)).toNat+16 :=
    add_ofNat_toNat (i := 16) (by omega)
  rw [hreply] at hnat
  have husable := h (BitVec.ofNat 64 (2^i)) (fun _ => 0#8) fun l hl => by
    rw [hasked] at hl
    cases hl
    refine .inr ⟨?_,by omega⟩
    rw [halign,hreply]
    exact Nat.pow_dvd_pow 2 hki
  unfold Malloced.Usable at husable
  rw [hptr,hasked] at husable
  rcases husable with hzero | ⟨l,hl,hdvd,-,hend⟩
  · rw [hzero] at hnat
    exact absurd hnat (by simp)
  · cases hl
    rw [hnat] at hdvd hend
    rcases hbad with hbad | hbad
    · exact hbad ((Nat.dvd_add_left (by decide)).mp hdvd)
    · omega

lemma alwaysUsable_of_aligned (hsize : size ≠ 0#64) (hfits : size.toNat+16 < 2^64)
    (hlayout : Layout.fromSizeAlign (size+headerSize) (mallocAlign size) = some layout)
    (halign : 16 ∣ layout.align) : AlwaysUsable size := by
  intro reply m hserved
  obtain ⟨-,hlsize,-⟩ := fromSizeAlign_eq_some hlayout
  have hadd : (size+headerSize).toNat = size.toNat+16 := add_ofNat_toNat (i := 16) hfits
  by_cases hreply : reply = 0#64
  · rw [hreply]
    exact .inl (malloc_null m)
  · obtain ⟨hptr,hasked⟩ := malloc_served reply m hsize hreply hlayout
    obtain ⟨hdvd,hbound⟩ := (hserved layout hasked).resolve_left hreply
    have hpos : size.toNat ≠ 0 := fun hzero => hsize (BitVec.eq_of_toNat_eq hzero)
    have hnat : (reply+headerSize).toNat = reply.toNat+16 :=
      add_ofNat_toNat (i := 16) (by omega)
    refine .inr ⟨layout,hasked,?_,?_,?_⟩
    · rw [hptr,hnat]
      exact Nat.dvd_add (halign.trans hdvd) (dvd_refl 16)
    · rw [hptr,hnat]
    · rw [hptr,hnat]
      omega

lemma sixteen_dvd_iff {k q : ℕ} : 16 ∣ 2^k*(2*q+1) ↔ 4 ≤ k := by
  constructor
  · intro h
    have hco : Nat.Coprime (2^4) (2*q+1) := Nat.Coprime.pow_left 4 (by simp)
    exact (Nat.pow_dvd_pow_iff_le_right (by decide)).mp (hco.dvd_of_dvd_mul_right h)
  · exact fun h => (Nat.pow_dvd_pow 2 h).mul_right _

/-- A size that wraps with its header: the block asked for is too small for the header alone. -/
lemma not_alwaysUsable_of_wraps (hsize : size ≠ 0#64) (hwraps : 2^64 ≤ size.toNat+16) :
    ¬ AlwaysUsable size := by
  obtain ⟨k,q,hkq,hpow,halign,-⟩ := mallocAlign_spec hsize
  have hlt := size.isLt
  have hadd : (size+headerSize).toNat = size.toNat+16-2^64 := by
    rw [BitVec.toNat_add]
    change (size.toNat+16)%2^64 = _
    omega
  have hsmall : k ≤ 4 := by
    by_contra hk
    have hdvd : 32 ∣ size.toNat := by
      rw [hkq]
      exact (Nat.pow_dvd_pow 2 (show 5 ≤ k by omega)).mul_right _
    omega
  have hle : 2^k ≤ 2^4 := Nat.pow_le_pow_right (by decide) hsmall
  obtain ⟨layout,hlayout,hls,hla⟩ := fromSizeAlign_some (size+headerSize) hpow
    (by rw [hadd,halign]; omega)
  rw [halign] at hla
  refine not_alwaysUsable hsize hsmall (by decide) hlayout hla (.inr ?_)
  omega

lemma alwaysUsable_of_refused (hfits : size.toNat+16 < 2^64)
    (hlarge : 2^63 ≤ size.toNat+16+((mallocAlign size).toNat-1)) : AlwaysUsable size := by
  have hadd : (size+headerSize).toNat = size.toNat+16 := add_ofNat_toNat (i := 16) hfits
  have hnone := fromSizeAlign_none (size+headerSize) (mallocAlign size) (by rw [hadd]; exact hlarge)
  exact fun reply m _ => .inl (malloc_refused m reply hnone)

/-- A size that `alloc` is asked for as it is: the alignment decides. -/
lemma alwaysUsable_iff_dvd (hsize : size ≠ 0#64)
    (hsmall : size.toNat+16+((mallocAlign size).toNat-1) < 2^63) :
    AlwaysUsable size ↔ 16 ∣ size.toNat := by
  obtain ⟨k,q,hkq,hpow,halign,-⟩ := mallocAlign_spec hsize
  have hpos := Nat.two_pow_pos k
  have hfits : size.toNat+16 < 2^64 := by omega
  have hadd : (size+headerSize).toNat = size.toNat+16 := add_ofNat_toNat (i := 16) hfits
  obtain ⟨layout,hlayout,-,hla⟩ := fromSizeAlign_some (size+headerSize) hpow
    (by rw [hadd]; omega)
  rw [halign] at hla
  rw [hkq,sixteen_dvd_iff]
  by_cases hk : 4 ≤ k
  · refine iff_of_true (alwaysUsable_of_aligned hsize hfits hlayout ?_) hk
    rw [hla]
    exact Nat.pow_dvd_pow 2 hk
  · refine iff_of_false (not_alwaysUsable hsize le_rfl (by omega) hlayout hla (.inl fun h => ?_)) hk
    exact hk ((Nat.pow_dvd_pow_iff_le_right (by decide)).mp h)

/-- `malloc` gives usable memory for a size whose header fits a `usize`, and that is refused as too
large or is a multiple of 16; for every other size a block of the layout that it asks for can be too
small or not aligned. -/
theorem malloc_usable_iff (size : BitVec 64) :
    AlwaysUsable size ↔ size = 0#64 ∨ size.toNat+16 < 2^64 ∧
      (2^63 ≤ size.toNat+16+((isolateLowestOne size).toNat-1) ∨ 16 ∣ size.toNat) := by
  by_cases hsize : size = 0#64
  · refine iff_of_true (fun reply m _ => .inl ?_) (.inl hsize)
    rw [malloc,if_pos hsize]
  obtain ⟨k,q,-,-,halign,hlow⟩ := mallocAlign_spec hsize
  rw [or_iff_right hsize,hlow,← halign]
  by_cases hfits : size.toNat+16 < 2^64
  · rw [and_iff_right hfits]
    by_cases hlarge : 2^63 ≤ size.toNat+16+((mallocAlign size).toNat-1)
    · exact iff_of_true (alwaysUsable_of_refused hfits hlarge) (.inl hlarge)
    · rw [or_iff_right hlarge]
      exact alwaysUsable_iff_dvd hsize (Nat.lt_of_not_le hlarge)
  · exact iff_of_false (not_alwaysUsable_of_wraps hsize (Nat.le_of_not_lt hfits)) fun h => hfits h.1

/-- The layout that a request of `2^64 - 8` bytes comes to. -/
def layoutWrapped : Layout := ⟨8,8,pow2_eight,by decide⟩

/-- One byte may come at an odd address; and for `2^64 - 8` bytes `malloc` asks for 8, to put the
header and them there. -/
theorem malloc_unusable :
    (Served layout1 0x1001#64 ∧ (malloc 1#64 0x1001#64 fun _ => 0#8).asked = some layout1 ∧
        (malloc 1#64 0x1001#64 fun _ => 0#8).ptr = 0x1011#64 ∧ ¬ 16 ∣ (0x1011#64).toNat) ∧
      Served layoutWrapped 0x1000#64 ∧
        (malloc (-8#64) 0x1000#64 fun _ => 0#8).asked = some layoutWrapped ∧
        (malloc (-8#64) 0x1000#64 fun _ => 0#8).ptr = 0x1010#64 ∧
        ¬ InBlock 0x1000#64 layoutWrapped 0x1008#64 := by
  have h₁ : Layout.fromSizeAlign (1#64+headerSize) (mallocAlign 1#64) = some layout1 :=
    dif_pos ⟨⟨0,by decide,by decide⟩,by decide⟩
  have h₂ : Layout.fromSizeAlign (-8#64+headerSize) (mallocAlign (-8#64)) = some layoutWrapped :=
    dif_pos ⟨⟨3,by decide,by decide⟩,by decide⟩
  obtain ⟨hptr,hasked⟩ :=
    malloc_served 0x1001#64 (fun _ => 0#8) (by decide) (by decide) h₁
  obtain ⟨hptr',hasked'⟩ :=
    malloc_served 0x1000#64 (fun _ => 0#8) (by decide) (by decide) h₂
  exact ⟨⟨by decide,hasked,hptr,by decide⟩,by decide,hasked',hptr',by decide⟩

end Malloc

section AlignedAlloc

variable {size align reply : BitVec 64} {m : Mem 64} {layout : Layout}

/-- `align_offset` of a pointer to bytes. -/
def alignOffset (p align : BitVec 64) : BitVec 64 :=
  BitVec.ofNat 64 ((align.toNat-p.toNat%align.toNat)%align.toNat)

/-- What `aligned_alloc` returns, the words it stores, and the layout it called `alloc` with, if it
did. -/
structure AlignedAlloced where
  ptr : BitVec 64
  stores : List (BitVec 64 × BitVec 64)
  asked : Option Layout

/-- `aligned_alloc`; `reply` is what `alloc` returns when it is called. The header goes before the
block, not before the pointer that is returned. -/
def alignedAlloc (size align reply : BitVec 64) : AlignedAlloced :=
  if size = 0#64 then ⟨0#64,[],none⟩
  else match Layout.fromSizeAlign (size+headerSize) align with
    | none => ⟨0#64,[],none⟩
    | some layout =>
      if reply = 0#64 then ⟨0#64,[],some layout⟩
      else
        let offset := headerSize+alignOffset (reply+headerSize) align
        let newBase := reply+offset
        let ptr := reply-headerSize
        ⟨newBase,[(ptr,size),(ptr+8#64,align)],some layout⟩

/-- The memory after the stores. -/
def AlignedAlloced.mem (r : AlignedAlloced) (m : Mem 64) : Mem 64 :=
  r.stores.foldl (fun m s => m.setWord s.1 s.2) m

/-- Null, or an aligned pointer with its bytes and everything that was stored in the block, that
`free` gives back as the block it is in. -/
def AlignedAlloced.Usable (r : AlignedAlloced) (size align reply : BitVec 64) (m : Mem 64) : Prop :=
  r.ptr = 0#64 ∨ ∃ layout, r.asked = some layout ∧ align.toNat ∣ r.ptr.toNat ∧
    (∀ i < size.toNat, InBlock reply layout (r.ptr+BitVec.ofNat 64 i)) ∧
    (∀ s ∈ r.stores, ∀ i < 8, InBlock reply layout (s.1+BitVec.ofNat 64 i)) ∧
    free r.ptr (r.mem m) = .ok (some (reply,layout))

/-- `aligned_alloc` gives usable memory whatever `alloc` returns. -/
def AlwaysAligned (size align : BitVec 64) : Prop :=
  ∀ reply m, (∀ layout, (alignedAlloc size align reply).asked = some layout → Served layout reply) →
    (alignedAlloc size align reply).Usable size align reply m

lemma alignedAlloc_refused (reply : BitVec 64)
    (h : Layout.fromSizeAlign (size+headerSize) align = none) :
    (alignedAlloc size align reply).ptr = 0#64 := by
  by_cases hsize : size = 0#64
  · rw [alignedAlloc,if_pos hsize]
  · simp only [alignedAlloc,if_neg hsize,h]

lemma alignedAlloc_served (reply : BitVec 64) (hsize : size ≠ 0#64) (hreply : reply ≠ 0#64)
    (h : Layout.fromSizeAlign (size+headerSize) align = some layout) :
    alignedAlloc size align reply =
      ⟨reply+(headerSize+alignOffset (reply+headerSize) align),
        [(reply-headerSize,size),(reply-headerSize+8#64,align)],some layout⟩ := by
  simp only [alignedAlloc,if_neg hsize,h,if_neg hreply]

/-- The word before a block is not in it, also where the address wraps. -/
lemma not_inBlock_before (reply : BitVec 64) (layout : Layout) :
    ¬ InBlock reply layout (reply-headerSize) := by
  have hbound := layout.bound
  have hlt := reply.isLt
  have hsub : (reply-headerSize).toNat = (2^64-16+reply.toNat)%2^64 := BitVec.toNat_sub _ _
  unfold InBlock
  rw [hsub]
  omega

/-- Whenever `aligned_alloc` returns a block, it has written outside it. -/
lemma not_usable_of_ne (hne : (alignedAlloc size align reply).ptr ≠ 0#64) :
    ¬ (alignedAlloc size align reply).Usable size align reply m := by
  rintro (hzero | ⟨layout,-,-,-,hstores,-⟩)
  · exact hne hzero
  have hsize : size ≠ 0#64 := by
    intro h
    rw [alignedAlloc,if_pos h] at hne
    exact hne rfl
  have hreply : reply ≠ 0#64 := by
    intro h
    subst h
    cases hl : Layout.fromSizeAlign (size+headerSize) align with
    | none => exact hne (alignedAlloc_refused _ hl)
    | some l => simp only [alignedAlloc,if_neg hsize,hl,if_true,ne_eq,not_true] at hne
  cases hl : Layout.fromSizeAlign (size+headerSize) align with
  | none => exact hne (alignedAlloc_refused _ hl)
  | some l =>
    rw [alignedAlloc_served _ hsize hreply hl] at hstores
    have hfirst := hstores (reply-headerSize,size) List.mem_cons_self 0 (by decide)
    rw [BitVec.add_zero] at hfirst
    exact not_inBlock_before reply layout hfirst

/-- A block at the alignment itself gives a pointer that is not null. -/
lemma alignedAlloc_ne_zero (hsize : size ≠ 0#64) (hpow : Align.IsPow2 align)
    (hfits : size.toNat+16+(align.toNat-1) < 2^63)
    (h : Layout.fromSizeAlign (size+headerSize) align = some layout) :
    (alignedAlloc size align align).ptr ≠ 0#64 := by
  have hpos := hpow.pos
  have hne : align ≠ 0#64 := by
    intro hzero
    rw [hzero] at hpos
    exact absurd hpos (by decide)
  have hmod := Nat.mod_lt (align.toNat-(align+headerSize).toNat%align.toNat) hpos
  have hoff : (alignOffset (align+headerSize) align).toNat =
      (align.toNat-(align+headerSize).toNat%align.toNat)%align.toNat := by
    rw [alignOffset,BitVec.toNat_ofNat]
    exact Nat.mod_eq_of_lt (by omega)
  rw [alignedAlloc_served _ hsize hne h]
  intro hzero
  have hnat := congrArg BitVec.toNat hzero
  rw [BitVec.toNat_add,BitVec.toNat_add,hoff] at hnat
  change (align.toNat+(16+_)%2^64)%2^64 = 0 at hnat
  omega

/-- `aligned_alloc` never gives usable memory: with all the blocks that `alloc` may return it is right
only for a request that is refused as too large. -/
theorem aligned_alloc_usable_iff (size align : BitVec 64) (hsize : size ≠ 0#64)
    (hpow : Align.IsPow2 align) (hfits : size.toNat+16 < 2^64) :
    AlwaysAligned size align ↔ 2^63 ≤ size.toNat+16+(align.toNat-1) := by
  have hadd : (size+headerSize).toNat = size.toNat+16 := add_ofNat_toNat (i := 16) hfits
  constructor
  · intro h
    by_contra hsmall
    obtain ⟨layout,hlayout,hls,hla⟩ := fromSizeAlign_some (size+headerSize) hpow
      (by rw [hadd]; omega)
    have hne := alignedAlloc_ne_zero hsize hpow (by omega) hlayout
    have hserved : ∀ l, (alignedAlloc size align align).asked = some l → Served l align := by
      intro l hl
      have hreply : align ≠ 0#64 := fun hzero => absurd hpow.pos (by rw [hzero]; decide)
      rw [alignedAlloc_served _ hsize hreply hlayout] at hl
      cases hl
      refine .inr ⟨by rw [hla],?_⟩
      rw [hls,hadd]
      have hpos := hpow.pos
      omega
    exact not_usable_of_ne hne (h align (fun _ => 0#8) hserved)
  · intro hlarge reply m _
    exact .inl (alignedAlloc_refused reply (fromSizeAlign_none _ _ (by rw [hadd]; exact hlarge)))

/-- A request that is refused. -/
theorem aligned_alloc_usable_iff_huge :
    Align.IsPow2 1#64 ∧ AlwaysAligned 0x8000000000000000#64 1#64 := by
  have hpow : Align.IsPow2 1#64 := ⟨0,by decide,rfl⟩
  exact ⟨hpow,(aligned_alloc_usable_iff _ _ (by decide) hpow (by decide)).mpr (by decide)⟩

/-- The layout of 16 bytes with an alignment of 16. -/
def layout16 : Layout := ⟨32,16,⟨4,rfl⟩,by decide⟩

/-- The layout of 16 bytes with an alignment of 32. -/
def layout32 : Layout := ⟨32,32,⟨5,rfl⟩,by decide⟩

/-- For 16 bytes aligned to 16 the header is written before the block, and `free` finds none; aligned
to 32 they begin where the block ends. -/
theorem aligned_alloc_misses_block :
    (Served layout16 0x1000#64 ∧ alignedAlloc 16#64 16#64 0x1000#64 =
        ⟨0x1010#64,[(0xFF0#64,16#64),(0xFF8#64,16#64)],some layout16⟩ ∧
        ¬ InBlock 0x1000#64 layout16 0xFF0#64 ∧
        free 0x1010#64 ((alignedAlloc 16#64 16#64 0x1000#64).mem fun _ => 0#8) =
          .error ⟨0x1010#64,0#64,0#64⟩) ∧
      Served layout32 0x1000#64 ∧ (alignedAlloc 16#64 32#64 0x1000#64).ptr = 0x1020#64 ∧
        (alignedAlloc 16#64 32#64 0x1000#64).asked = some layout32 ∧
        ¬ InBlock 0x1000#64 layout32 0x1020#64 := by
  have h₁ : Layout.fromSizeAlign (16#64+headerSize) 16#64 = some layout16 :=
    dif_pos ⟨⟨4,by decide,by decide⟩,by decide⟩
  have h₂ : Layout.fromSizeAlign (16#64+headerSize) 32#64 = some layout32 :=
    dif_pos ⟨⟨5,by decide,by decide⟩,by decide⟩
  have hcall := alignedAlloc_served 0x1000#64 (by decide) (by decide) h₁
  have hcall' := alignedAlloc_served 0x1000#64 (by decide) (by decide) h₂
  refine ⟨⟨by decide,hcall,by decide,?_⟩,by decide,?_,?_,by decide⟩
  · rw [hcall]
    decide +kernel
  · rw [hcall']
    decide
  · rw [hcall']

end AlignedAlloc

end WinterLily.Alloc
