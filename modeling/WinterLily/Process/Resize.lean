import WinterLily.Access.Checked
import WinterLily.Process.Mapping

/-! `ResizeMapping` of `wl-usi-process/src/mem.rs` with the memory it acts on: the kernel moves the
contents with the pages, and the new address is written to the guest by `write_checked`, from a local
on the stack of the call. -/
namespace WinterLily.Resize
open WinterLily.Memory WinterLily.Pages WinterLily.Handles WinterLily.Process WinterLily.Mapping
open WinterLily.Access (JmpBuf Thread Outcome Overlaps writeChecked copy_overlap copy_open
  copy_closed)

/-- The page of an address. -/
def pageOf (a : Word) : ℕ := a.toNat/4096

/-- What the protection of a page allows; a page that can be written can be read. -/
def allowed (page : Page) : Access → Bool
  | .read => page.prot &&& (protRead ||| protWrite) ≠ 0#32
  | .write => page.prot &&& protWrite ≠ 0#32

def perms (s : Space Page) : Perms 64 := fun acc a =>
  if (s (pageOf a)).any (allowed · acc) then none else some .segv

/-- The pages of the process and the thread that makes the call. -/
structure Machine where
  space : Space Page
  thread : Thread

/-- Where the kernel puts the pages, and what those past the old ones hold. -/
structure Reply where
  page : Except Errno ℕ
  fill : Mem 64

/-- The local of `write_checked` with the value it writes, and its error record. -/
structure Locals where
  val : Word
  err : Word

def Locals.span (L : Locals) : Span 64 := ⟨L.val,8#64⟩

/-- Memory after the pages `old` have become the pages `new`. -/
def carry (old new : Range) (fill m : Mem 64) : Mem 64 := fun a =>
  if new.has (pageOf a) then
    if pageOf a-new.start < old.len then
      m (BitVec.ofNat 64 (4096*(old.start+(pageOf a-new.start))+a.toNat%4096))
    else fill a
  else m a

def carried (old new : Range) (fill : Mem 64) (t : Thread) : Thread :=
  { t with mem := carry old new fill t.mem }

/-- The value to be written is in the local. -/
def Locals.hold (L : Locals) (v : Word) (t : Thread) : Thread :=
  { t with mem := t.mem.setWord L.val v }

/-- `write_checked` of the new address. With its stack gone the call does not get to the end. -/
def store (L : Locals) (frame : JmpBuf) (newAddr : Word) (new : Range) (s : Space Page) (t : Thread) :
    Outcome (Except LiliumError Unit) :=
  if (perms s).Allows .write L.val 8 then
    (writeChecked (perms s) frame (L.hold (addr new) t) newAddr L.val 8#64 L.err).andThen
      fun r t => .returned (r.mapError fun _ => .invalidMemory) t
  else .killed Signals.sigsegv

/-- `ResizeMapping` with the memory of the process. -/
def resizeMemory (K : Layout) (L : Locals) (frame : JmpBuf)
    (baseAddr oldPageCount newAddr newPageCount : Word) (reply : Reply) (M : Machine) :
    Outcome (Except LiliumError Unit) × Space Page :=
  resizeMapping K baseAddr oldPageCount newAddr newPageCount reply.page
    (fun e => .returned (.error e) M.thread)
    (fun ranges => .returned (.ok ()) (carried ranges.1 ranges.2 reply.fill M.thread))
    (fun ranges s =>
      store L frame newAddr ranges.2 s (carried ranges.1 ranges.2 reply.fill M.thread))
    M.space

/-- The mappings are as before the call, and so is what they hold but for the call's own local. -/
structure Unchanged (L : Locals) (M : Machine) (t : Thread) (s : Space Page) : Prop where
  space : s = M.space
  contents : ∀ a, (M.space (pageOf a)).isSome = true → a ∉ L.span → t.mem a = M.thread.mem a

section Kernel

variable {K : Layout} {s t : Space Page} {o r : Range}

/-- The pages `o` grow, or one of those that they shrink by is mapped. -/
def Changes (s : Space Page) (o r : Range) : Prop := o.len < r.len ∨ s.free (shed o r) = false

/-- These are the calls of `mremap` that change the mappings. -/
lemma remapped_ne_iff (h : Remapped K s o r t) : t ≠ s ↔ Changes s o r := by
  cases h with
  | shrunk hstart hlen hroom =>
    rw [Changes,or_iff_right (not_lt.mpr hlen),← Bool.not_eq_true,not_iff_not,free_iff]
    constructor
    · intro heq q hq
      rw [← heq,Space.drop,if_pos hq]
    · intro hfree
      funext q
      by_cases hq : (shed o r).has q = true
      · rw [Space.drop,if_pos hq,hfree q hq]
      · exact drop_of_not_has _ (Bool.eq_false_iff.mpr hq)
  | grown page hpage hlen hfull hfits hplace =>
    refine iff_of_true (fun heq => ?_) (.inl hlen)
    obtain ⟨hstart,hfree⟩ | hfree := hplace
    · -- the page after the last one was free
      have hin : r.has (o.start+o.len) = true := Range.has_iff.mpr ⟨by omega,by omega⟩
      have hout : o.has (o.start+o.len) = false := by
        rw [← Bool.not_eq_true,Range.has_iff]
        omega
      have hnone := free_iff.mp hfree _ hin
      rw [drop_of_not_has _ hout,← heq,Space.place,if_pos hin,if_neg (by omega)] at hnone
      cases hnone
    · have hin : r.has r.start = true := Range.has_iff.mpr ⟨le_rfl,by omega⟩
      have hnone := free_iff.mp hfree _ hin
      rw [← heq,Space.place,if_pos hin,Nat.sub_self,Nat.add_zero,hpage] at hnone
      split_ifs at hnone

/-- Pages that are not moved hold what they held. -/
lemma carry_of_le (hstart : r.start = o.start) (hlen : r.len ≤ o.len) (fill m : Mem 64) :
    carry o r fill m = m := by
  funext a
  unfold carry
  split_ifs with hin hlt
  · have hrange := Range.has_iff.mp hin
    congr 1
    apply BitVec.eq_of_toNat_eq
    have ha := a.isLt
    unfold pageOf at *
    rw [BitVec.toNat_ofNat]
    omega
  · exact absurd (Range.has_iff.mp hin) (by omega)
  · rfl

end Kernel

section Call

variable (K : Layout) (L : Locals) (frame : JmpBuf) (baseAddr oldPageCount newAddr newPageCount : Word)
  (reply : Reply) (M : Machine)

/-- A call that fails has changed nothing. -/
def FailsClean : Prop :=
  ∀ e t s, resizeMemory K L frame baseAddr oldPageCount newAddr newPageCount reply M =
    (.returned (.error e) t,s) → Unchanged L M t s

/-- What the kernel answers. -/
def remap : Except Errno (Range × Range) × Space Page :=
  mremap K baseAddr (oldPageCount*4096#64) (newPageCount*4096#64) (mremapFlags newAddr) reply.page
    M.space

/-- The kernel changes the pages, and the place for the new address overlaps the local that it is
written from. -/
def Overlapped : Prop :=
  newAddr ≠ 0#64 ∧ Overlaps L.val newAddr 8#64 ∧ ∃ old new s,
    remap K baseAddr oldPageCount newAddr newPageCount reply M = (.ok (old,new),s) ∧
      Changes M.space old new ∧ (perms s).Allows .write L.val 8

variable {K baseAddr oldPageCount newAddr newPageCount reply M} {old new : Range} {s : Space Page}
  {t u : Thread}

lemma resizeMemory_refused {e : Errno}
    (h : remap K baseAddr oldPageCount newAddr newPageCount reply M = (.error e,s)) :
    resizeMemory K L frame baseAddr oldPageCount newAddr newPageCount reply M =
      (.returned (.error (linuxErrorToLilium e)) M.thread,s) := by
  unfold remap at h
  simp only [resizeMemory,resizeMapping,h,lift,Except.mapError]

lemma resizeMemory_null (hnull : newAddr = 0#64)
    (h : remap K baseAddr oldPageCount newAddr newPageCount reply M = (.ok (old,new),s)) :
    resizeMemory K L frame baseAddr oldPageCount newAddr newPageCount reply M =
      (.returned (.ok ()) (carried old new reply.fill M.thread),s) := by
  unfold remap at h
  simp only [resizeMemory,resizeMapping,h,lift,Except.mapError,if_pos hnull]

lemma resizeMemory_write (hnull : newAddr ≠ 0#64)
    (h : remap K baseAddr oldPageCount newAddr newPageCount reply M = (.ok (old,new),s)) :
    resizeMemory K L frame baseAddr oldPageCount newAddr newPageCount reply M =
      (store L frame newAddr new s (carried old new reply.fill M.thread),s) := by
  unfold remap at h
  simp only [resizeMemory,resizeMapping,h,lift,Except.mapError,if_neg hnull]

/-- The checked write fails only on overlap. -/
lemma writeChecked_error {p : Perms 64} {e : Access.CheckedAccessError}
    (h : writeChecked p frame t newAddr L.val 8#64 L.err = .returned (.error e) u) :
    Overlaps L.val newAddr 8#64 ∧ u = t := by
  by_cases hover : Overlaps L.val newAddr 8#64
  · obtain ⟨e',he⟩ := copy_overlap (p := p) frame t L.err hover
    rw [writeChecked,he] at h
    cases h
    exact ⟨hover,rfl⟩
  · by_cases hopen : (⟨newAddr,L.val,8#64⟩ : Access.Regs).Open p (Access.covered (8#64).toNat)
    · obtain ⟨t',ht⟩ := copy_open frame t L.err hover hopen
      rw [writeChecked,ht] at h
      cases h
    · obtain ⟨sig,hs⟩ := copy_closed frame t L.err hover hopen
      rw [writeChecked,hs] at h
      cases h

lemma store_error {e : LiliumError} (h : store L frame newAddr new s t = .returned (.error e) u) :
    e = .invalidMemory ∧ Overlaps L.val newAddr 8#64 ∧ (perms s).Allows .write L.val 8 ∧
      u = L.hold (addr new) t := by
  unfold store at h
  split_ifs at h with hlocal
  cases hwrite : writeChecked (perms s) frame (L.hold (addr new) t) newAddr L.val 8#64 L.err with
  | returned r v =>
    rw [hwrite] at h
    cases r with
    | error e' =>
      cases h
      obtain ⟨hover,rfl⟩ := writeChecked_error L frame hwrite
      exact ⟨rfl,hover,hlocal,rfl⟩
    | ok _ => cases h
  | killed sig | elsewhere buf | stuck =>
    rw [hwrite] at h
    cases h

/-- On overlap the guest gets an error, with the pages changed. -/
lemma Overlapped.fails (h : Overlapped K L baseAddr oldPageCount newAddr newPageCount reply M) :
    (∃ t, resizeMemory K L frame baseAddr oldPageCount newAddr newPageCount reply M =
        (.returned (.error .invalidMemory) t,
          (remap K baseAddr oldPageCount newAddr newPageCount reply M).2)) ∧
      (remap K baseAddr oldPageCount newAddr newPageCount reply M).2 ≠ M.space := by
  obtain ⟨hnull,hover,old,new,s,hremap,hchanges,hlocal⟩ := h
  obtain ⟨e,he⟩ := copy_overlap (p := perms s) frame
    (L.hold (addr new) (carried old new reply.fill M.thread)) L.err hover
  obtain ⟨-,-,-,-,hpages⟩ := mremap_ok hremap
  rw [hremap]
  refine ⟨⟨L.hold (addr new) (carried old new reply.fill M.thread),?_⟩,(remapped_ne_iff hpages).mpr hchanges⟩
  rw [resizeMemory_write L frame hnull hremap,store,if_pos hlocal,writeChecked,he]
  rfl

/-- Nothing is changed when the kernel changes no pages. -/
lemma unchanged_of_same (hremap : remap K baseAddr oldPageCount newAddr newPageCount reply M =
    (.ok (old,new),s)) (hsame : ¬ Changes M.space old new) :
    Unchanged L M (L.hold (addr new) (carried old new reply.fill M.thread)) s := by
  obtain ⟨-,-,-,-,hpages⟩ := mremap_ok hremap
  refine ⟨not_not.mp fun hne => hsame ((remapped_ne_iff hpages).mp hne),fun a _ ha => ?_⟩
  cases hpages with
  | shrunk hstart hlen hroom =>
    unfold Locals.hold carried
    rw [carry_of_le hstart hlen]
    exact if_neg ha
  | grown page hpage hlen => exact absurd (.inl hlen) hsame

variable (K baseAddr oldPageCount newAddr newPageCount reply M)

/-- A failing `ResizeMapping` has no effect exactly when it is not the case that the kernel changes
the pages and the new address is to be written over the local it is written from. -/
theorem resize_fails_clean_iff :
    FailsClean K L frame baseAddr oldPageCount newAddr newPageCount reply M ↔
      ¬ Overlapped K L baseAddr oldPageCount newAddr newPageCount reply M := by
  constructor
  · intro hclean hover
    obtain ⟨⟨t,hrun⟩,hne⟩ := hover.fails L frame
    exact hne (hclean _ _ _ hrun).space
  · intro hnot e t s hrun
    cases hremap : remap K baseAddr oldPageCount newAddr newPageCount reply M with
    | mk answer u =>
      cases answer with
      | error e' =>
        rw [resizeMemory_refused L frame hremap] at hrun
        cases hrun
        exact ⟨mremap_refused hremap,fun _ _ _ => rfl⟩
      | ok ranges =>
        by_cases hnull : newAddr = 0#64
        · rw [resizeMemory_null L frame hnull hremap] at hrun
          cases hrun
        · rw [resizeMemory_write L frame hnull hremap] at hrun
          obtain ⟨hwrite,rfl⟩ := Prod.mk.inj hrun
          obtain ⟨-,hover,hlocal,rfl⟩ := store_error L frame hwrite
          -- the error is an overlap, so the pages did not change
          exact unchanged_of_same L hremap fun hchanges =>
            hnot ⟨hnull,hover,_,_,_,hremap,hchanges,hlocal⟩

end Call

section Layers

variable {K : Layout} {L : Locals} {frame : JmpBuf}
  {baseAddr oldPageCount newAddr newPageCount : Word} {reply : Reply} {M : Machine} {s : Space Page}
  {t : Thread} {r : Except LiliumError Unit}

/-- A call that returns does to the pages what the call without memory does, the write through the
new address going through or not. -/
theorem resizeMemory_refines (h : resizeMemory K L frame baseAddr oldPageCount newAddr newPageCount
    reply M = (.returned r t,s)) :
    ∃ written x, resizePages K baseAddr oldPageCount newAddr newPageCount reply.page written
      M.space = (x,s) ∧ x.map (fun _ => ()) = r := by
  refine ⟨r.isOk,?_⟩
  unfold resizePages resizeMapping
  unfold resizeMemory resizeMapping at h
  cases hremap : lift (mremap K baseAddr (oldPageCount*4096#64) (newPageCount*4096#64)
    (mremapFlags newAddr) reply.page M.space) with
  | mk answer u =>
    rw [hremap] at h
    cases answer with
    | error e =>
      cases h
      exact ⟨_,rfl,rfl⟩
    | ok ranges =>
      obtain ⟨hend,rfl⟩ := Prod.mk.inj h
      by_cases hnull : newAddr = 0#64
      · rw [if_pos hnull] at hend
        cases hend
        exact ⟨.ok ranges,by simp only [if_pos hnull],rfl⟩
      · rw [if_neg hnull] at hend
        simp only [if_neg hnull]
        cases r with
        | error e =>
          obtain ⟨rfl,-⟩ := store_error L frame hend
          exact ⟨_,rfl,rfl⟩
        | ok _ => exact ⟨_,rfl,rfl⟩

end Layers

section Sample

/-- Two pages of a stack and one that is to be resized, with room after it. -/
def sampleSpace : Space Page := fun q =>
  if q = 7 ∨ q = 8 ∨ q = 16 then some ⟨protRead ||| protWrite,false⟩ else none

lemma sample_lowest : 0 < 1 := by decide
lemma sample_lt : 1 < 64 := by decide
lemma sample_small : 64 ≤ 2^44 := by decide

def sampleLayout : Layout := ⟨1,64,sample_lowest,sample_lt,sample_small⟩

def sampleMachine : Machine := ⟨sampleSpace,Access.calmThread⟩

/-- The page at 0x10000 grows in place. -/
def sampleReply : Reply := ⟨.ok 16,fun _ => 0#8⟩

def sampleLocals : Locals := ⟨0x8000#64,0x8010#64⟩

def sampleRemap : Except Errno (Range × Range) × Space Page :=
  remap sampleLayout 0x10000#64 1#64 0x8000#64 2#64 sampleReply sampleMachine

/-- The new address is asked for at the place of the local: the page has been added when the call
fails. -/
theorem resized_and_refused :
    (∃ t, resizeMemory sampleLayout sampleLocals 0 0x10000#64 1#64 0x8000#64 2#64 sampleReply
        sampleMachine = (.returned (.error .invalidMemory) t,sampleRemap.2)) ∧
      sampleMachine.space 17 = none ∧ (sampleRemap.2 17).isSome = true ∧
      ¬ FailsClean sampleLayout sampleLocals 0 0x10000#64 1#64 0x8000#64 2#64 sampleReply
        sampleMachine := by
  have hok : sampleRemap.1 = .ok (⟨16,1⟩,⟨16,2⟩) := by decide +kernel
  have hremap : sampleRemap = (.ok (⟨16,1⟩,⟨16,2⟩),sampleRemap.2) := Prod.ext hok rfl
  have hlocal : (perms sampleRemap.2).Allows .write sampleLocals.val 8 := by decide +kernel
  have hover : Overlapped sampleLayout sampleLocals 0x10000#64 1#64 0x8000#64 2#64 sampleReply
      sampleMachine :=
    ⟨by decide,.inl (by decide),⟨16,1⟩,⟨16,2⟩,sampleRemap.2,hremap,.inl (by decide),hlocal⟩
  obtain ⟨⟨t,hrun⟩,hne⟩ := hover.fails sampleLocals 0
  exact ⟨⟨t,hrun⟩,rfl,by decide +kernel,fun hclean => hne (hclean _ _ _ hrun).space⟩

end Sample

end WinterLily.Resize
