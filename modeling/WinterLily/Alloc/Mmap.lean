import WinterLily.Base.Align
import WinterLily.Base.Memory
import WinterLily.Base.Pages
import WinterLily.Base.Transition

/-! `MmapAllocator` of `wl-helpers/src/lib.rs`, which serves each block from pages of its own. The
kernel's answer to the one system call a method may make is an argument of the method; the pages
follow the specification of `Base.Pages`. -/
namespace WinterLily.Alloc
open WinterLily.Memory WinterLily.Pages WinterLily.Transition

/-- `core::alloc::Layout`. -/
structure Layout where
  size : ℕ
  align : ℕ
  pow2 : ∃ k, align = 2^k
  bound : size+(align-1) < 2^63
  deriving DecidableEq

/-- `layout.size().next_multiple_of(4096)`. -/
def Layout.pageSize (l : Layout) : ℕ := Align.up l.size 4096

/-- The rounding does not overflow, so naturals are faithful. -/
theorem pageSize_lt (l : Layout) : l.pageSize < 2^64 := by
  have hup : l.pageSize < l.size+4096 := Align.up_lt_add (by decide)
  have hbound := l.bound
  omega

/-- The bytes of a page, by offset. -/
abbrev Page := ℕ → Byte

def Page.zero : Page := fun _ => 0

/-- `NonNull<[u8]>`. -/
structure SlicePtr where
  addr : ℕ
  len : ℕ
  deriving DecidableEq, Repr

/-- `NonNull::new(slice_from_raw_parts_mut(..)).ok_or(AllocError)`. -/
def nonNull (addr len : ℕ) : Option SlicePtr := if addr = 0 then none else some ⟨addr,len⟩

section Methods

/-- `MmapAllocator::allocate_zeroed`; `none` is `Err(AllocError)`. -/
def allocateZeroed (layout : Layout) (reply : Option ℕ) (s : Space Page) :
    Option SlicePtr × Space Page :=
  if 4096 < layout.align then (none,s)
  else if layout.pageSize = 0 then (some ⟨layout.align,0⟩,s)
  else
    match s.mmap reply (layout.pageSize/4096) fun _ => Page.zero with
    | none => (none,s)
    | some (p,s) => (nonNull (p*4096) layout.pageSize,s)

/-- `MmapAllocator::allocate`. -/
def allocate (layout : Layout) (reply : Option ℕ) (s : Space Page) :
    Option SlicePtr × Space Page :=
  allocateZeroed layout reply s

/-- `MmapAllocator::deallocate`; the result of `munmap` is dropped. -/
def deallocate (ptr : ℕ) (layout : Layout) (unmaps : Bool) (s : Space Page) : Space Page :=
  if layout.pageSize ≠ 0 then
    if unmaps then s.drop ⟨ptr/4096,layout.pageSize/4096⟩ else s
  else s

/-- The `mremap` that `grow_zeroed` and `shrink` end in. -/
def remap (ptr oldSize newSize : ℕ) (reply : Option ℕ) (s : Space Page) :
    Option SlicePtr × Space Page :=
  match s.mremap reply ⟨ptr/4096,oldSize/4096⟩ (newSize/4096) fun _ => Page.zero with
  | none => (none,s)
  | some (p,s) => (nonNull (p*4096) newSize,s)

/-- `MmapAllocator::grow_zeroed`. -/
def growZeroed (ptr : ℕ) (old new : Layout) (reply : Option ℕ) (s : Space Page) :
    Option SlicePtr × Space Page :=
  if 4096 < new.align then (none,s)
  else if old.pageSize = 0 then allocateZeroed new reply s
  else if new.pageSize = old.pageSize then (some ⟨ptr,new.pageSize⟩,s)
  else remap ptr old.pageSize new.pageSize reply s

/-- `MmapAllocator::grow`. -/
def grow (ptr : ℕ) (old new : Layout) (reply : Option ℕ) (s : Space Page) :
    Option SlicePtr × Space Page :=
  growZeroed ptr old new reply s

/-- `MmapAllocator::shrink`. -/
def shrink (ptr : ℕ) (old new : Layout) (reply : Option ℕ) (unmaps : Bool) (s : Space Page) :
    Option SlicePtr × Space Page :=
  if 4096 < new.align then (none,s)
  else if new.pageSize = 0 then (some ⟨new.align,0⟩,deallocate ptr old unmaps s)
  else if new.pageSize = old.pageSize then (some ⟨ptr,new.pageSize⟩,s)
  else remap ptr old.pageSize new.pageSize reply s

end Methods

section Machine

/-- A slice handed out, with the layout it was last requested with. -/
structure Block extends SlicePtr where
  layout : Layout
  deriving DecidableEq

def Block.pages (b : Block) : Range := ⟨b.addr/4096,b.len/4096⟩

/-- The layout fits the block, in the sense of the `Allocator` contract. -/
def Block.Fits (b : Block) (l : Layout) : Prop :=
  l.align = b.layout.align ∧ b.layout.size ≤ l.size ∧ l.size ≤ b.len

instance (b : Block) (l : Layout) : Decidable (b.Fits l) := inferInstanceAs (Decidable (_ ∧ _))

/-- The pages, the blocks of the callers, and the blocks whose `munmap` failed. -/
structure Arena where
  space : Space Page
  live : List Block
  lost : List Block

def Arena.initial : Arena := ⟨fun _ => none,[],[]⟩

inductive AllocCall
  | allocate (layout : Layout) (reply : Option ℕ)
  | allocateZeroed (layout : Layout) (reply : Option ℕ)
  | deallocate (b : Block) (layout : Layout) (unmaps : Bool)
  | grow (b : Block) (old new : Layout) (reply : Option ℕ)
  | growZeroed (b : Block) (old new : Layout) (reply : Option ℕ)
  | shrink (b : Block) (old new : Layout) (reply : Option ℕ) (unmaps : Bool)
  | store (a : ℕ) (v : Byte)

/-- The blocks after a method that, when it succeeds, turns those in `rest` and its result into the
live ones. -/
def Arena.settle (s : Arena) (rest : List Block) (layout : Layout) :
    Option SlicePtr × Space Page → Arena
  | (none,space) => { s with space := space }
  | (some r,space) => ⟨space,⟨r,layout⟩::rest,s.lost⟩

@[simp] lemma settle_some (s : Arena) (rest : List Block) (layout : Layout) (r : SlicePtr)
    (space : Space Page) :
    s.settle rest layout (some r,space) = ⟨space,⟨r,layout⟩::rest,s.lost⟩ := rfl

/-- A caller writes to a byte of a block. -/
def storeByte (s : Space Page) (a : ℕ) (v : Byte) : Space Page :=
  Function.update s (a/4096) ((s (a/4096)).map fun page => Function.update page (a%4096) v)

/-- A call that keeps to the contract of `Allocator`. -/
def arenaStep (s : Arena) : AllocCall → Option Arena
  | .allocate layout reply => some (s.settle s.live layout (allocate layout reply s.space))
  | .allocateZeroed layout reply =>
    some (s.settle s.live layout (allocateZeroed layout reply s.space))
  | .deallocate b layout unmaps =>
    if b ∈ s.live ∧ b.Fits layout then
      some ⟨deallocate b.addr layout unmaps s.space,s.live.erase b,
        if layout.pageSize ≠ 0 ∧ unmaps = false then b::s.lost else s.lost⟩
    else none
  | .grow b old new reply =>
    if b ∈ s.live ∧ b.Fits old ∧ old.size ≤ new.size then
      some (s.settle (s.live.erase b) new (grow b.addr old new reply s.space))
    else none
  | .growZeroed b old new reply =>
    if b ∈ s.live ∧ b.Fits old ∧ old.size ≤ new.size then
      some (s.settle (s.live.erase b) new (growZeroed b.addr old new reply s.space))
    else none
  | .shrink b old new reply unmaps =>
    if b ∈ s.live ∧ b.Fits old ∧ new.size ≤ old.size then
      let t := s.settle (s.live.erase b) new (shrink b.addr old new reply unmaps s.space)
      if new.align ≤ 4096 ∧ new.pageSize = 0 ∧ old.pageSize ≠ 0 ∧ unmaps = false then
        some { t with lost := b::s.lost }
      else some t
    else none
  | .store a v =>
    if ∃ b ∈ s.live, b.addr ≤ a ∧ a < b.addr+b.len then
      some { s with space := storeByte s.space a v }
    else none

end Machine

section Contract

def byteAt (s : Space Page) (a : ℕ) : Option Byte := (s (a/4096)).map fun page => page (a%4096)

/-- The bytes of a block are as they were. -/
def Kept (s t : Arena) (b : Block) : Prop :=
  ∀ i < b.len, byteAt t.space (b.addr+i) = byteAt s.space (b.addr+i)

/-- What an allocation owes its caller. -/
def Allocated (s t : Arena) (layout : Layout) : Option SlicePtr → Prop
  | none => t = s
  | some r => t.live = ⟨r,layout⟩::s.live ∧ (∀ i < r.len, byteAt t.space (r.addr+i) = some 0) ∧
      ∀ c ∈ s.live, Kept s t c

/-- What `grow` and `shrink` owe their callers. -/
def Resized (s t : Arena) (b : Block) (old new : Layout) : Option SlicePtr → Prop
  | none => t = s
  | some r => t.live = ⟨r,new⟩::s.live.erase b ∧
      (∀ i < min old.size new.size, byteAt t.space (r.addr+i) = byteAt s.space (b.addr+i)) ∧
      (∀ i, b.len ≤ i → i < r.len → byteAt t.space (r.addr+i) = some 0) ∧
      ∀ c ∈ s.live.erase b, Kept s t c

/-- What a call owes its caller, by the value it returns. -/
def CallSound (s t : Arena) : AllocCall → Prop
  | .allocate layout reply => Allocated s t layout (allocate layout reply s.space).1
  | .allocateZeroed layout reply => Allocated s t layout (allocateZeroed layout reply s.space).1
  | .deallocate b _ _ => t.live = s.live.erase b ∧ ∀ c ∈ s.live.erase b, Kept s t c
  | .grow b old new reply => Resized s t b old new (grow b.addr old new reply s.space).1
  | .growZeroed b old new reply => Resized s t b old new (growZeroed b.addr old new reply s.space).1
  | .shrink b old new reply unmaps =>
    Resized s t b old new (shrink b.addr old new reply unmaps s.space).1
  | .store _ _ => t.live = s.live

/-- The mapped pages are those of the live and of the lost blocks, each once, and every live block
is what its layout asks for. -/
structure ArenaSound (s : Arena) : Prop where
  tiles : Tiles Block.pages s.space (s.live++s.lost)
  long : ∀ b ∈ s.live, b.layout.size ≤ b.len
  aligned : ∀ b ∈ s.live, b.addr % b.layout.align = 0

/-- Every `munmap` the call may make goes through. -/
def AllocCall.Unmaps : AllocCall → Prop
  | .deallocate _ _ unmaps => unmaps = true
  | .shrink _ _ _ _ unmaps => unmaps = true
  | _ => True

end Contract

section Blocks

/-- How the allocator places a block. -/
structure Block.Placed (b : Block) : Prop where
  rounded : b.len = b.layout.pageSize
  small : b.layout.align ≤ 4096
  paged : b.len ≠ 0 → b.addr % 4096 = 0
  dangling : b.len = 0 → b.addr = b.layout.align

variable {b : Block} {l : Layout} {s t : Space Page}

lemma pageSize_mod (l : Layout) : l.pageSize % 4096 = 0 :=
  Nat.mod_eq_zero_of_dvd (Align.dvd_up l.size 4096)

lemma pageSize_eq_zero (h : l.pageSize = 0) : l.size = 0 := by
  have hle : l.size ≤ l.pageSize := Align.le_up (by decide)
  omega

/-- A layout that fits rounds to the length of the block. -/
lemma Block.Placed.pageSize_of_fits (h : b.Placed) (hl : b.Fits l) : l.pageSize = b.len := by
  obtain ⟨-,hlo,hhi⟩ := hl
  have hlen := h.rounded
  unfold Layout.pageSize Align.up at hlen ⊢
  omega

lemma Block.Placed.long (h : b.Placed) : b.layout.size ≤ b.len := by
  rw [h.rounded]
  exact Align.le_up (by decide)

lemma Block.Placed.aligned (h : b.Placed) : b.addr % b.layout.align = 0 := by
  by_cases hlen : b.len = 0
  · rw [h.dangling hlen,Nat.mod_self]
  · obtain ⟨k,hk⟩ := b.layout.pow2
    have hsmall : 2^k ≤ 2^12 := hk ▸ h.small
    have hdvd : 2^k ∣ 4096 := Nat.pow_dvd_pow 2 ((Nat.pow_le_pow_iff_right (by decide)).mp hsmall)
    rw [hk]
    exact Nat.mod_eq_zero_of_dvd (hdvd.trans (Nat.dvd_of_mod_eq_zero (h.paged hlen)))

/-- A byte of a slice that starts a page. -/
lemma byteAt_add (s : Space Page) {a : ℕ} (h : a % 4096 = 0) (i : ℕ) :
    byteAt s (a+i) = (s (a/4096+i/4096)).map fun page => page (i%4096) := by
  rw [byteAt,show (a+i)/4096 = a/4096+i/4096 by omega,show (a+i)%4096 = i%4096 by omega]

/-- A byte of pages just placed. -/
lemma byteAt_place (s : Space Page) (p : ℕ) (g : ℕ → Option Page) {i : ℕ} (h : i < l.pageSize) :
    byteAt (s.place ⟨p,l.pageSize/4096⟩ g) (p*4096+i) =
      (g (i/4096)).map fun page => page (i%4096) := by
  have hmod := pageSize_mod l
  rw [byteAt_add _ (Nat.mul_mod_left p 4096),Nat.mul_div_left p (by decide),
    place_apply _ _ _ _ (by omega)]

/-- A block whose pages are untouched keeps its bytes. -/
lemma Block.Placed.kept (h : b.Placed) (hpages : ∀ q, b.pages.has q = true → t q = s q) :
    ∀ i < b.len, byteAt t (b.addr+i) = byteAt s (b.addr+i) := by
  intro i hi
  have hpage := h.paged (by omega)
  have hlen := h.rounded
  have hmod := pageSize_mod b.layout
  rw [byteAt_add t hpage,byteAt_add s hpage,hpages]
  rw [Range.has_iff]
  exact ⟨Nat.le_add_right _ _,Nat.add_lt_add_left (show i/4096 < b.len/4096 by omega) _⟩

end Blocks

section Outcomes

variable {s : Space Page} {b : Block} {layout old new : Layout}

lemma allocateZeroed_cases (layout : Layout) (reply : Option ℕ) (s : Space Page) :
    allocateZeroed layout reply s = (none,s) ∨
      layout.align ≤ 4096 ∧
        (layout.pageSize = 0 ∧ allocateZeroed layout reply s = (some ⟨layout.align,0⟩,s) ∨
          ∃ p, 0 < p ∧ layout.pageSize ≠ 0 ∧ s.free ⟨p,layout.pageSize/4096⟩ = true ∧
            allocateZeroed layout reply s = (some ⟨p*4096,layout.pageSize⟩,
              s.place ⟨p,layout.pageSize/4096⟩ fun _ => some Page.zero)) := by
  unfold allocateZeroed
  by_cases halign : 4096 < layout.align
  · exact .inl (if_pos halign)
  rw [if_neg halign]
  by_cases hsize : layout.pageSize = 0
  · rw [if_pos hsize]
    exact .inr ⟨by omega,.inl ⟨hsize,rfl⟩⟩
  rw [if_neg hsize]
  split
  · exact .inl rfl
  · next p t hmap =>
    obtain ⟨-,hp,hfree,rfl⟩ := mmap_eq_some hmap
    rw [nonNull,if_neg (by omega)]
    exact .inr ⟨by omega,.inr ⟨p,hp,hsize,hfree,rfl⟩⟩

lemma remap_cases (ptr oldSize newSize : ℕ) (reply : Option ℕ) (s : Space Page) :
    remap ptr oldSize newSize reply s = (none,s) ∨
      ∃ p, 0 < p ∧ (s.drop ⟨ptr/4096,oldSize/4096⟩).free ⟨p,newSize/4096⟩ = true ∧
        remap ptr oldSize newSize reply s = (some ⟨p*4096,newSize⟩,
          (s.drop ⟨ptr/4096,oldSize/4096⟩).place ⟨p,newSize/4096⟩ fun i =>
            if i < oldSize/4096 then s (ptr/4096+i) else some Page.zero) := by
  unfold remap
  split
  · exact .inl rfl
  · next p t hmap =>
    obtain ⟨-,hp,hfree,rfl⟩ := mremap_eq_some hmap
    rw [nonNull,if_neg (by omega)]
    exact .inr ⟨p,hp,hfree,rfl⟩

/-- What `grow` and `shrink` can do to a block when no `munmap` fails. -/
inductive Outcome (s : Space Page) (b : Block) (new : Layout) : Option SlicePtr × Space Page → Prop
  | failed : Outcome s b new (none,s)
  | emptied (hsmall : new.align ≤ 4096) (hnew : new.pageSize = 0) :
    Outcome s b new (some ⟨new.align,0⟩,s.drop b.pages)
  | relabelled (hsmall : new.align ≤ 4096) (hnew : new.pageSize = b.len) (hb : b.len ≠ 0) :
    Outcome s b new (some ⟨b.addr,new.pageSize⟩,s)
  | moved (p : ℕ) (hp : 0 < p) (hsmall : new.align ≤ 4096) (hnew : new.pageSize ≠ 0)
    (hfree : (s.drop b.pages).free ⟨p,new.pageSize/4096⟩ = true) :
    Outcome s b new (some ⟨p*4096,new.pageSize⟩,(s.drop b.pages).place ⟨p,new.pageSize/4096⟩
      fun i => if i < b.pages.len then s (b.pages.start+i) else some Page.zero)

lemma remap_outcome (hsmall : new.align ≤ 4096) (hnew : new.pageSize ≠ 0) (reply : Option ℕ) :
    Outcome s b new (remap b.addr b.len new.pageSize reply s) := by
  obtain hfail | ⟨p,hp,hfree,hremap⟩ := remap_cases b.addr b.len new.pageSize reply s
  · rw [hfail]
    exact .failed
  · rw [hremap]
    exact .moved p hp hsmall hnew hfree

/-- Growing an empty block allocates one. -/
lemma allocateZeroed_outcome (hb : b.len = 0) (reply : Option ℕ) :
    Outcome s b new (allocateZeroed new reply s) := by
  have hpages : b.pages.len = 0 := by simp [Block.pages,hb]
  have hdrop := drop_of_empty s hpages
  obtain hfail | ⟨hsmall,⟨hnew,halloc⟩ | ⟨p,hp,hnew,hfree,halloc⟩⟩ := allocateZeroed_cases new reply s
  · rw [hfail]
    exact .failed
  · have hout := Outcome.emptied (s := s) (b := b) hsmall hnew
    rwa [hdrop,← halloc] at hout
  · rw [← hdrop] at hfree
    have hout := Outcome.moved p hp hsmall hnew hfree
    rw [hpages,hdrop] at hout
    simp only [Nat.not_lt_zero,if_false] at hout
    rwa [← halloc] at hout

lemma growZeroed_outcome (hb : b.Placed) (hold : b.Fits old) (hle : old.size ≤ new.size)
    (reply : Option ℕ) : Outcome s b new (growZeroed b.addr old new reply s) := by
  have hlen := hb.pageSize_of_fits hold
  unfold growZeroed
  rw [hlen]
  by_cases halign : 4096 < new.align
  · rw [if_pos halign]
    exact .failed
  rw [if_neg halign]
  by_cases hempty : b.len = 0
  · rw [if_pos hempty]
    exact allocateZeroed_outcome hempty reply
  rw [if_neg hempty]
  by_cases hsame : new.pageSize = b.len
  · rw [if_pos hsame]
    exact .relabelled (by omega) hsame hempty
  · rw [if_neg hsame]
    refine remap_outcome (by omega) ?_ reply
    intro hzero
    have hnew := pageSize_eq_zero hzero
    have hsize : old.pageSize = 0 := by rw [Layout.pageSize,show old.size = 0 by omega]; rfl
    omega

lemma shrink_outcome (hb : b.Placed) (hold : b.Fits old) (reply : Option ℕ) {unmaps : Bool}
    (hkeep : ¬ (new.align ≤ 4096 ∧ new.pageSize = 0 ∧ old.pageSize ≠ 0 ∧ unmaps = false)) :
    Outcome s b new (shrink b.addr old new reply unmaps s) := by
  have hlen := hb.pageSize_of_fits hold
  unfold shrink deallocate
  rw [hlen] at hkeep ⊢
  by_cases halign : 4096 < new.align
  · rw [if_pos halign]
    exact .failed
  rw [if_neg halign]
  by_cases hzero : new.pageSize = 0
  · have hout := Outcome.emptied (s := s) (b := b) (by omega) hzero
    rw [if_pos hzero]
    by_cases hempty : b.len = 0
    · rw [drop_of_empty s (by simp [Block.pages,hempty])] at hout
      rwa [if_neg (not_not.mpr hempty)]
    · have hunmaps : unmaps = true := by
        by_contra hfalse
        exact hkeep ⟨by omega,hzero,hempty,by simpa using hfalse⟩
      rw [if_pos hempty,if_pos hunmaps]
      exact hout
  rw [if_neg hzero]
  by_cases hsame : new.pageSize = b.len
  · rw [if_pos hsame]
    exact .relabelled (by omega) hsame (by omega)
  · rw [if_neg hsame]
    exact remap_outcome (by omega) hzero reply

end Outcomes

section Steps

variable {s t : Arena} {b : Block} {layout old new : Layout}

structure Arena.Inv (s : Arena) : Prop where
  tiles : Tiles Block.pages s.space (s.live++s.lost)
  placed : ∀ b ∈ s.live, b.Placed

lemma pages_of_page (p : ℕ) (l : Layout) :
    Block.pages ⟨⟨p*4096,l.pageSize⟩,l⟩ = ⟨p,l.pageSize/4096⟩ := by
  simp [Block.pages]

lemma forall_placed_cons (h : ∀ c ∈ s.live, c.Placed) (hb : b.Placed) : ∀ c ∈ b::s.live, c.Placed :=
  List.forall_mem_cons.mpr ⟨hb,h⟩

/-- A free range becomes a block. -/
lemma Arena.Inv.take (h : s.Inv) {p : ℕ} (hsmall : layout.align ≤ 4096)
    (hsize : layout.pageSize ≠ 0) (hfree : s.space.free ⟨p,layout.pageSize/4096⟩ = true)
    {f : ℕ → Option Page} (hf : ∀ i < layout.pageSize/4096, (f i).isSome = true) :
    Arena.Inv ⟨s.space.place ⟨p,layout.pageSize/4096⟩ f,
      ⟨⟨p*4096,layout.pageSize⟩,layout⟩::s.live,s.lost⟩ := by
  refine ⟨?_,forall_placed_cons h.placed
    ⟨rfl,hsmall,fun _ => Nat.mul_mod_left p 4096,fun hzero => absurd hzero hsize⟩⟩
  rw [← pages_of_page p layout] at hfree ⊢
  refine h.tiles.place hfree fun i hi => hf i ?_
  rwa [pages_of_page] at hi

lemma Arena.Inv.dangle (h : s.Inv) (hsmall : layout.align ≤ 4096) (hsize : layout.pageSize = 0) :
    Arena.Inv ⟨s.space,⟨⟨layout.align,0⟩,layout⟩::s.live,s.lost⟩ :=
  ⟨h.tiles.cons_of_empty (Nat.zero_div 4096),forall_placed_cons h.placed
    ⟨hsize.symm,hsmall,fun hne => absurd rfl hne,fun _ => rfl⟩⟩

lemma Arena.Inv.release (h : s.Inv) (hb : b ∈ s.live) :
    Arena.Inv ⟨s.space.drop b.pages,s.live.erase b,s.lost⟩ := by
  refine ⟨?_,fun c hc => h.placed c (List.mem_of_mem_erase hc)⟩
  have htiles := h.tiles.drop (List.mem_append_left s.lost hb)
  rwa [List.erase_append_left _ hb] at htiles

lemma Arena.Inv.lose (h : s.Inv) (hb : b ∈ s.live) :
    Arena.Inv ⟨s.space,s.live.erase b,b::s.lost⟩ := by
  refine ⟨h.tiles.perm ?_,fun c hc => h.placed c (List.mem_of_mem_erase hc)⟩
  have hout : (s.live++s.lost).Perm (b::(s.live.erase b++s.lost)) :=
    (List.perm_cons_erase hb).append_right s.lost
  exact hout.trans List.perm_middle.symm

lemma Arena.Inv.relabel (h : s.Inv) (hb : b ∈ s.live) (hsmall : layout.align ≤ 4096)
    (hsize : layout.pageSize = b.len) (hne : b.len ≠ 0) :
    Arena.Inv ⟨s.space,⟨⟨b.addr,layout.pageSize⟩,layout⟩::s.live.erase b,s.lost⟩ := by
  refine ⟨?_,List.forall_mem_cons.mpr ⟨⟨rfl,hsmall,fun _ => (h.placed b hb).paged hne,
    fun hzero => absurd (hsize.symm.trans hzero) hne⟩,
    fun c hc => h.placed c (List.mem_of_mem_erase hc)⟩⟩
  have htiles := h.tiles.relabel (c := ⟨⟨b.addr,layout.pageSize⟩,layout⟩)
    (List.mem_append_left s.lost hb) (by simp [Block.pages,hsize])
  rwa [List.erase_append_left _ hb] at htiles

/-- The pages of a block stay mapped until it is released. -/
lemma Arena.Inv.contents_isSome (h : s.Inv) (hb : b ∈ s.live) (i : ℕ) :
    (if i < b.pages.len then s.space (b.pages.start+i) else some Page.zero).isSome = true := by
  split
  · next hi =>
    exact h.tiles.mapped (List.mem_append_left s.lost hb)
      (Range.has_iff.mpr ⟨Nat.le_add_right _ i,Nat.add_lt_add_left hi _⟩)
  · rfl

lemma Outcome.inv {r : Option SlicePtr × Space Page} (ho : Outcome s.space b new r) (h : s.Inv)
    (hb : b ∈ s.live) : (s.settle (s.live.erase b) new r).Inv := by
  cases ho with
  | failed => exact h
  | emptied hsmall hnew => exact (h.release hb).dangle hsmall hnew
  | relabelled hsmall hnew hne => exact h.relabel hb hsmall hnew hne
  | moved p hp hsmall hnew hfree =>
    exact (h.release hb).take hsmall hnew hfree fun i _ => h.contents_isSome hb i

/-- The other blocks keep their bytes while `b` is released. -/
lemma Arena.Inv.kept_of_release (h : s.Inv) (hb : b ∈ s.live)
    (ht : ∀ q, b.pages.has q = false → (s.space q).isSome = true → t.space q = s.space q) :
    ∀ c ∈ s.live.erase b, Kept s t c := by
  intro c hc
  refine (h.placed c (List.mem_of_mem_erase hc)).kept fun q hq => ?_
  have hcmem : c ∈ (s.live++s.lost).erase b := by
    rw [List.erase_append_left _ hb]
    exact List.mem_append_left s.lost hc
  exact ht q (h.tiles.apart (List.mem_append_left s.lost hb) hcmem hq)
    (h.tiles.mapped (List.mem_append_left s.lost (List.mem_of_mem_erase hc)) hq)

lemma Arena.Inv.kept_of_take (h : s.Inv)
    (ht : ∀ q, (s.space q).isSome = true → t.space q = s.space q) : ∀ c ∈ s.live, Kept s t c := by
  intro c hc
  apply (h.placed c hc).kept
  exact fun q hq => ht q (h.tiles.mapped (List.mem_append_left s.lost hc) hq)

lemma allocateZeroed_inv (h : s.Inv) (layout : Layout) (reply : Option ℕ) :
    (s.settle s.live layout (allocateZeroed layout reply s.space)).Inv := by
  obtain hfail | ⟨hsmall,⟨hnew,halloc⟩ | ⟨p,-,hnew,hfree,halloc⟩⟩ :=
    allocateZeroed_cases layout reply s.space
  · rw [hfail]
    exact h
  · rw [halloc]
    exact h.dangle hsmall hnew
  · rw [halloc]
    exact h.take hsmall hnew hfree fun _ _ => rfl

lemma allocateZeroed_allocated (h : s.Inv) (layout : Layout) (reply : Option ℕ) :
    Allocated s (s.settle s.live layout (allocateZeroed layout reply s.space)) layout
      (allocateZeroed layout reply s.space).1 := by
  obtain hfail | ⟨-,⟨-,halloc⟩ | ⟨p,-,-,hfree,halloc⟩⟩ := allocateZeroed_cases layout reply s.space
  · rw [hfail]
    rfl
  · rw [halloc]
    exact ⟨rfl,fun i hi => absurd hi (Nat.not_lt_zero i),fun _ _ _ _ => rfl⟩
  · rw [halloc,settle_some]
    refine ⟨rfl,fun i hi => byteAt_place s.space p (fun _ => some Page.zero) hi,
      h.kept_of_take fun q hq => ?_⟩
    dsimp only
    exact place_of_mapped hfree _ hq

/-- The bytes of a block that was moved. -/
lemma moved_bytes (hb : b.Placed) (p : ℕ) {i : ℕ} (hi : i < new.pageSize) :
    byteAt ((s.space.drop b.pages).place ⟨p,new.pageSize/4096⟩ fun i =>
        if i < b.pages.len then s.space (b.pages.start+i) else some Page.zero) (p*4096+i) =
      if i < b.len then byteAt s.space (b.addr+i) else some 0 := by
  have hmod := pageSize_mod b.layout
  rw [← hb.rounded] at hmod
  rw [byteAt_place _ p _ hi]
  by_cases hin : i < b.len
  · have hpage : i/4096 < b.pages.len := by
      change i/4096 < b.len/4096
      omega
    rw [if_pos hin,if_pos hpage,byteAt_add _ (hb.paged (by omega))]
    rfl
  · have hpage : ¬ i/4096 < b.pages.len := by
      change ¬ i/4096 < b.len/4096
      omega
    rw [if_neg hin,if_neg hpage]
    rfl

lemma Outcome.resized {r : Option SlicePtr × Space Page} (ho : Outcome s.space b new r) (h : s.Inv)
    (hb : b ∈ s.live) (hold : b.Fits old) :
    Resized s (s.settle (s.live.erase b) new r) b old new r.1 := by
  have hplaced := h.placed b hb
  cases ho with
  | failed => rfl
  | emptied hsmall hnew =>
    have hzero := pageSize_eq_zero hnew
    refine ⟨rfl,fun i hi => ?_,fun i _ hi => absurd hi (Nat.not_lt_zero i),?_⟩
    · rw [hzero,Nat.min_zero] at hi
      exact absurd hi (Nat.not_lt_zero i)
    · exact h.kept_of_release hb fun q hq _ => drop_of_not_has s.space hq
  | relabelled hsmall hnew hne =>
    refine ⟨rfl,fun _ _ => rfl,fun i hge hlt => ?_,fun _ _ _ _ => rfl⟩
    change i < new.pageSize at hlt
    omega
  | moved p hp hsmall hnew hfree =>
    rw [settle_some]
    refine ⟨rfl,fun i hi => ?_,fun i hge hlt => ?_,?_⟩
    · have hsize : new.size ≤ new.pageSize := Align.le_up (by decide)
      have hfits := hold.2.2
      change byteAt _ (p*4096+i) = _
      rw [moved_bytes hplaced p (by omega),if_pos (by omega)]
    · change byteAt _ (p*4096+i) = _
      rw [moved_bytes hplaced p hlt,if_neg (by omega)]
    · apply h.kept_of_release hb
      intro q hq hmapped
      rw [← drop_of_not_has s.space hq] at hmapped ⊢
      dsimp only
      exact place_of_mapped hfree _ hmapped

/-- The one case in which pages are lost by `shrink`. -/
lemma shrink_lost (reply : Option ℕ) {unmaps : Bool}
    (hlost : new.align ≤ 4096 ∧ new.pageSize = 0 ∧ old.pageSize ≠ 0 ∧ unmaps = false) :
    shrink b.addr old new reply unmaps s.space = (some ⟨new.align,0⟩,s.space) := by
  obtain ⟨hsmall,hzero,-,rfl⟩ := hlost
  rw [shrink,if_neg (by omega),if_pos hzero,deallocate]
  simp

lemma deallocate_eq (hb : b.Placed) (hfit : b.Fits layout) (unmaps : Bool) (s : Space Page) :
    deallocate b.addr layout unmaps s =
      if layout.pageSize ≠ 0 ∧ unmaps = false then s else s.drop b.pages := by
  have hlen := hb.pageSize_of_fits hfit
  rw [deallocate,hlen]
  by_cases hempty : b.len = 0
  · simp [hempty,drop_of_empty s (show b.pages.len = 0 by simp [Block.pages,hempty])]
  · cases unmaps with
    | true => simp [hempty,Block.pages]
    | false => simp [hempty]

/-- A write of the caller maps and unmaps nothing. -/
lemma storeByte_isSome (s : Space Page) (a : ℕ) (v : Byte) (q : ℕ) :
    (storeByte s a v q).isSome = (s q).isSome := by
  by_cases hq : q = a/4096
  · rw [storeByte,hq,Function.update_self,Option.isSome_map]
  · rw [storeByte,Function.update_of_ne hq]

lemma Outcome.sound {r : Option SlicePtr × Space Page} (ho : Outcome s.space b new r) (h : s.Inv)
    (hb : b ∈ s.live) (hold : b.Fits old) :
    (s.settle (s.live.erase b) new r).Inv ∧
      Resized s (s.settle (s.live.erase b) new r) b old new r.1 :=
  ⟨ho.inv h hb,ho.resized h hb hold⟩

/-- A call keeps the invariant and honours its contract. -/
lemma step_sound {e : AllocCall} (h : s.Inv) (ht : arenaStep s e = some t) :
    t.Inv ∧ CallSound s t e := by
  cases e with
  | allocate layout reply | allocateZeroed layout reply =>
    cases ht
    exact ⟨allocateZeroed_inv h layout reply,allocateZeroed_allocated h layout reply⟩
  | deallocate b layout unmaps =>
    obtain ⟨hok,ht⟩ := Option.ite_none_right_eq_some.mp ht
    cases ht
    rw [deallocate_eq (h.placed b hok.1) hok.2]
    by_cases hlost : layout.pageSize ≠ 0 ∧ unmaps = false
    · rw [if_pos hlost,if_pos hlost]
      exact ⟨h.lose hok.1,rfl,fun _ _ _ _ => rfl⟩
    · rw [if_neg hlost,if_neg hlost]
      exact ⟨h.release hok.1,rfl,h.kept_of_release hok.1 fun q hq _ => drop_of_not_has s.space hq⟩
  | grow b old new reply | growZeroed b old new reply =>
    obtain ⟨hok,ht⟩ := Option.ite_none_right_eq_some.mp ht
    cases ht
    exact (growZeroed_outcome (h.placed b hok.1) hok.2.1 hok.2.2 reply).sound h hok.1 hok.2.1
  | shrink b old new reply unmaps =>
    obtain ⟨hok,ht⟩ := Option.ite_none_right_eq_some.mp ht
    by_cases hlost : new.align ≤ 4096 ∧ new.pageSize = 0 ∧ old.pageSize ≠ 0 ∧ unmaps = false
    · have hcall := shrink_lost (b := b) (s := s) reply hlost
      have hzero := pageSize_eq_zero hlost.2.1
      rw [if_pos hlost,hcall] at ht
      cases ht
      refine ⟨(h.lose hok.1).dangle hlost.1 hlost.2.1,?_⟩
      rw [CallSound,hcall]
      exact ⟨rfl,fun i hi => by omega,fun i _ hi => absurd hi (Nat.not_lt_zero i),
        fun _ _ _ _ => rfl⟩
    · rw [if_neg hlost] at ht
      cases ht
      exact (shrink_outcome (h.placed b hok.1) hok.2.1 reply hlost).sound h hok.1 hok.2.1
  | store a v =>
    obtain ⟨-,ht⟩ := Option.ite_none_right_eq_some.mp ht
    cases ht
    refine ⟨⟨fun q => ?_,h.placed⟩,rfl⟩
    rw [storeByte_isSome]
    exact h.tiles q

/-- Pages are lost only where a `munmap` fails. -/
lemma lost_step {e : AllocCall} (ht : arenaStep s e = some t) (he : e.Unmaps) : t.lost = s.lost := by
  have hsettle : ∀ rest layout r, (s.settle rest layout r).lost = s.lost := by
    rintro rest layout ⟨_ | r,space⟩ <;> rfl
  cases e with
  | allocate layout reply | allocateZeroed layout reply =>
    cases ht
    exact hsettle _ _ _
  | deallocate b layout unmaps =>
    obtain ⟨-,ht⟩ := Option.ite_none_right_eq_some.mp ht
    obtain rfl : unmaps = true := he
    cases ht
    exact if_neg (by simp)
  | grow b old new reply | growZeroed b old new reply =>
    obtain ⟨-,ht⟩ := Option.ite_none_right_eq_some.mp ht
    cases ht
    exact hsettle _ _ _
  | shrink b old new reply unmaps =>
    obtain ⟨-,ht⟩ := Option.ite_none_right_eq_some.mp ht
    obtain rfl : unmaps = true := he
    rw [if_neg (by simp)] at ht
    cases ht
    exact hsettle _ _ _
  | store a v =>
    obtain ⟨-,ht⟩ := Option.ite_none_right_eq_some.mp ht
    cases ht
    rfl

lemma initial_inv : Arena.initial.Inv := ⟨fun _ => rfl,nofun⟩

lemma Arena.Inv.sound (h : s.Inv) : ArenaSound s :=
  ⟨h.tiles,fun b hb => (h.placed b hb).long,fun b hb => (h.placed b hb).aligned⟩

lemma lost_of_unmaps {es : List AllocCall} (h : run arenaStep s es = some t)
    (hes : ∀ e ∈ es, e.Unmaps) : t.lost = s.lost := by
  induction es generalizing s with
  | nil =>
    cases h
    rfl
  | cons e es ih =>
    obtain ⟨u,hu,hrun⟩ := Option.bind_eq_some_iff.mp h
    rw [ih hrun fun f hf => hes f (List.mem_cons_of_mem e hf),
      lost_step hu (hes e List.mem_cons_self)]

end Steps

/-- In every run the mapped pages are those of the live blocks and of the blocks whose `munmap`
failed, every live block is long enough and aligned, and every next call honours its contract. -/
theorem reachable_arenaSound (es : List AllocCall) (s : Arena)
    (h : run arenaStep .initial es = some s) :
    ArenaSound s ∧ ((∀ e ∈ es, e.Unmaps) → s.lost = []) ∧
      ∀ e t, arenaStep s e = some t → CallSound s t e := by
  have hinv : s.Inv := run_invariant (fun _ _ _ hs ht => (step_sound hs ht).1) initial_inv h
  exact ⟨hinv.sound,lost_of_unmaps h,fun e t ht => (step_sound hinv ht).2⟩

/-- A hundred bytes, and the two pages they grow into. -/
def smallLayout : Layout := ⟨100,8,⟨3,rfl⟩,by decide⟩
def largeLayout : Layout := ⟨5000,8,⟨3,rfl⟩,by decide⟩

def smallBlock : Block := ⟨⟨4096,4096⟩,smallLayout⟩
def largeBlock : Block := ⟨⟨12288,8192⟩,largeLayout⟩

theorem reachable_arenaSound_grow :
    ∃ s, run arenaStep .initial [.allocate smallLayout (some 1),.store 4099 7#8,
        .grow smallBlock smallLayout largeLayout (some 3)] = some s ∧ s.live = [largeBlock] ∧
      ArenaSound s ∧ s.lost = [] ∧ ∀ e t, arenaStep s e = some t → CallSound s t e := by
  have hrun : (run arenaStep .initial [.allocate smallLayout (some 1),.store 4099 7#8,
      .grow smallBlock smallLayout largeLayout (some 3)]).map Arena.live = some [largeBlock] := by
    decide +kernel
  obtain ⟨s,hs,hlive⟩ := Option.map_eq_some_iff.mp hrun
  obtain ⟨hsound,hlost,hcall⟩ := reachable_arenaSound _ s hs
  exact ⟨s,hs,hlive,hsound,hlost (by simp [AllocCall.Unmaps]),hcall⟩

/-- When `munmap` fails the page stays mapped although no block is left. -/
theorem failed_munmap_keeps_page :
    ∃ s, run arenaStep .initial
        [.allocate smallLayout (some 1),.deallocate smallBlock smallLayout false] = some s ∧
      s.live = [] ∧ ¬ Tiles Block.pages s.space s.live := by
  have hrun : (run arenaStep .initial
      [.allocate smallLayout (some 1),.deallocate smallBlock smallLayout false]).map
        (fun s => (s.live,(s.space 1).isSome)) = some ([],true) := by
    decide +kernel
  obtain ⟨s,hs,hend⟩ := Option.map_eq_some_iff.mp hrun
  obtain ⟨hlive,hpage⟩ := Prod.mk.inj hend
  refine ⟨s,hs,hlive,fun htiles => ?_⟩
  have hcount := htiles 1
  rw [hlive,if_pos hpage] at hcount
  cases hcount

end WinterLily.Alloc
