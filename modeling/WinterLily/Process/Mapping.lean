import WinterLily.Base.Pages
import WinterLily.Process.Create

/-! The mapping calls of `wl-usi-process/src/mem.rs` over the pages of a Linux process. A guest
counts in pages; the kernel is passed a length in bytes, rounds it up to whole pages, and either
refuses it or acts on that many. Lengths are computed as a release build does, wrapping. -/
namespace WinterLily.Mapping
open WinterLily.Pages WinterLily.Handles WinterLily.Process

/-- A page as far as the calls see it. -/
structure Page where
  prot : BitVec 32
  shared : Bool
  deriving DecidableEq, Repr

/-- The pages a process can map: those from `vm.mmap_min_addr` up to `TASK_SIZE`. -/
structure Layout where
  lowest : ℕ
  taskPages : ℕ
  lowest_pos : 0 < lowest
  lowest_lt : lowest < taskPages
  small : taskPages ≤ 2^44

namespace Layout

def mappable (K : Layout) : ℕ := K.taskPages-K.lowest

def fits (K : Layout) (r : Range) : Bool := K.lowest ≤ r.start && r.start+r.len ≤ K.taskPages

@[simp] lemma fits_iff {K : Layout} {r : Range} :
    K.fits r = true ↔ K.lowest ≤ r.start ∧ r.start+r.len ≤ K.taskPages := by
  simp [fits]

lemma mappable_le (K : Layout) : K.mappable ≤ 2^44 := (Nat.sub_le _ _).trans K.small

lemma lowest_le (K : Layout) : K.lowest ≤ 2^44 := K.lowest_lt.le.trans K.small

/-- As many pages as can be mapped fit from the lowest on. -/
lemma fits_lowest (K : Layout) {k : ℕ} (h : k ≤ K.mappable) : K.fits ⟨K.lowest,k⟩ = true := by
  have hlowest := K.lowest_lt
  unfold mappable at h
  rw [fits_iff]
  dsimp only
  omega

lemma fits_le {K : Layout} {r : Range} (h : K.fits r = true) : r.len ≤ K.mappable := by
  have hfits := fits_iff.mp h
  unfold mappable
  omega

end Layout

/-- The whole pages that a length in bytes is rounded up to. -/
def pagesOf (len : Word) : ℕ := (len.toNat+4095)/4096

def addr (r : Range) : Word := BitVec.ofNat 64 (4096*r.start)

section Kernel

lemma enomem_pos : 0 < 12 := by decide
lemma enomem_lt : 12 < 4096 := by decide

def einval : Errno := ⟨22,by decide,by decide⟩
def enomem : Errno := ⟨12,enomem_pos,enomem_lt⟩
def efault : Errno := ⟨14,by decide,by decide⟩

def protRead : BitVec 32 := 1#32
def protWrite : BitVec 32 := 2#32
def protExec : BitVec 32 := 4#32
def protNone : BitVec 32 := 0#32
def mapShared : BitVec 32 := 1#32
def mapPrivate : BitVec 32 := 2#32
def mapAnonymous : BitVec 32 := 0x20#32
def mremapMaymove : BitVec 32 := 1#32

/-- `mmap` of new pages. The reply is the page that the kernel finds, or why it finds none. -/
def mmap (K : Layout) (len : Word) (prot flags : BitVec 32) (reply : Except Errno ℕ)
    (s : Space Page) : Except Errno Range × Space Page :=
  if len = 0#64 then (.error einval,s)
  else match reply with
    | .error e => (.error e,s)
    | .ok p =>
      let r : Range := ⟨p,pagesOf len⟩
      if K.fits r ∧ s.free r then
        (.ok r,s.place r fun _ => some ⟨prot,(flags &&& mapShared) ≠ 0#32⟩)
      else (.error enomem,s)

/-- `munmap`; the reply is a lack of memory for the split of a mapping. -/
def munmap (K : Layout) (base len : Word) (reply : Option Errno) (s : Space Page) :
    Except Errno Range × Space Page :=
  if base.toNat % 4096 ≠ 0 ∨ 4096*K.taskPages < base.toNat+len.toNat then (.error einval,s)
  else
    let r : Range := ⟨base.toNat/4096,pagesOf len⟩
    if r.len = 0 then (.error einval,s)
    else match reply with
      | some e => (.error e,s)
      | none => (.ok r,s.drop r)

/-- The pages that `mremap` to a smaller length unmaps. Linux computes their address modulo 2^64. -/
def shed (old new : Range) : Range := ⟨(old.start+new.len) % 2^52,old.len-new.len⟩

/-- `mremap`. Unless the length grows only the first of the old pages is looked up: the pages past
the new length are unmapped, whether they are there or not. Growing, in place or elsewhere, takes
all of the old pages, and duplicates shared pages if the old length is zero. -/
def mremap (K : Layout) (base oldLen newLen : Word) (flags : BitVec 32) (reply : Except Errno ℕ)
    (s : Space Page) : Except Errno (Range × Range) × Space Page :=
  let old : Range := ⟨base.toNat/4096,pagesOf oldLen⟩
  let kept : Range := ⟨old.start,pagesOf newLen⟩
  let seen : Range := ⟨old.start,max 1 old.len⟩
  if base.toNat % 4096 ≠ 0 ∨ kept.len = 0 then (.error einval,s)
  else match s old.start with
    | none => (.error efault,s)
    | some page =>
      if K.fits ⟨old.start,1⟩ = false then (.error efault,s)
      else if kept.len ≤ old.len then
        if kept.len < old.len ∧ K.taskPages < (shed old kept).start+(shed old kept).len then
          (.error einval,s)
        else match reply with
          | .error e => (.error e,s)
          | .ok _ => (.ok (old,kept),s.drop (shed old kept))
      else if s.full seen = false then (.error efault,s)
      else if old.len = 0 ∧ page.shared = false then (.error einval,s)
      else match reply with
        | .error e => (.error e,s)
        | .ok p =>
          let new : Range := ⟨p,pagesOf newLen⟩
          if K.fits new ∧ ((p = old.start ∧ (s.drop old).free new) ∨
              (flags &&& mremapMaymove ≠ 0#32 ∧ s.free new)) then
            (.ok (old,new),
              (s.drop old).place new fun i => if i < old.len then s (old.start+i) else some page)
          else (.error enomem,s)

/-- `mprotect`. At the first page that is not mapped it fails, with the pages before it changed. -/
def mprotect (K : Layout) (base len : Word) (prot : BitVec 32) (reply : Option Errno)
    (s : Space Page) : Except Errno Range × Space Page :=
  let r : Range := ⟨base.toNat/4096,pagesOf len⟩
  let change : Page → Page := fun page => { page with prot := prot }
  if base.toNat % 4096 ≠ 0 then (.error einval,s)
  else if len = 0#64 then (.ok r,s)
  else if K.fits r ∧ s.full r then
    match reply with
      | some e => (.error e,s)
      | none => (.ok r,s.adjust r change)
  else
    let mapped := ((List.range r.len).takeWhile fun i => (s (r.start+i)).isSome).length
    (.error enomem,s.adjust ⟨r.start,mapped⟩ change)

end Kernel

/-- The constants of `lilium_sys::sys::process`. -/
structure Consts where
  mapAttrRead : BitVec 32
  mapAttrWrite : BitVec 32
  mapAttrExec : BitVec 32
  mapAttrThreadPrivate : BitVec 32
  mapAttrProcPrivate : BitVec 32
  mapAttrReserve : BitVec 32
  mapKindNormal : BitVec 32
  mapKindResident : BitVec 32
  mapKindSecure : BitVec 32
  mapKindEncrypted : BitVec 32
  write_ne : mapAttrWrite ≠ 0#32

section Calls

variable (K : Layout) (C : Consts)

/-- The protection that the attributes ask for. -/
def linuxProt (mapAttrs : BitVec 32) : BitVec 32 :=
  let prot := 0#32
  let prot := if mapAttrs &&& C.mapAttrRead ≠ 0#32 then prot ||| protRead else prot
  let prot := if mapAttrs &&& C.mapAttrWrite ≠ 0#32 then prot ||| protWrite else prot
  let prot := if mapAttrs &&& C.mapAttrExec ≠ 0#32 then prot ||| protExec else prot
  if mapAttrs &&& C.mapAttrReserve ≠ 0#32 then prot ||| protNone else prot

def linuxFlags (mapAttrs : BitVec 32) : BitVec 32 :=
  let flags := mapPrivate ||| mapAnonymous
  if mapAttrs &&& C.mapAttrProcPrivate ≠ 0#32 then flags ||| mapPrivate else flags

/-- Writable and executable at once, which both calls refuse. -/
def writesText (mapAttrs : BitVec 32) : Bool :=
  mapAttrs &&& (C.mapAttrWrite ||| C.mapAttrExec) = C.mapAttrWrite ||| C.mapAttrExec

/-- `.map_err(linux_error_to_lilium)`. -/
def lift {α : Type} (r : Except Errno α × Space Page) : Except LiliumError α × Space Page :=
  (r.1.mapError linuxErrorToLilium,r.2)

/-- `CreateMapping`. The kernel may ignore the hint, so it only stands behind its reply. -/
def createMapping (_hint pageCount : Word) (mapAttrs mapKind : BitVec 32) (reply : Except Errno ℕ)
    (s : Space Page) : Except LiliumError Range × Space Page :=
  if mapAttrs &&& ~~~(C.mapAttrRead ||| C.mapAttrWrite ||| C.mapAttrExec |||
        C.mapAttrThreadPrivate ||| C.mapAttrProcPrivate ||| C.mapAttrReserve) ≠ 0#32 ∨
      (mapKind ≠ C.mapKindNormal ∧ mapKind ≠ C.mapKindResident ∧ mapKind ≠ C.mapKindSecure ∧
        mapKind ≠ C.mapKindEncrypted) then (.error .invalidOperation,s)
  else if writesText C mapAttrs then (.error .invalidOperation,s)
  else lift (mmap K (pageCount*4095#64) (linuxProt C mapAttrs) (linuxFlags C mapAttrs) reply s)

/-- `RemoveMapping`. -/
def removeMapping (baseAddr pageCount : Word) (reply : Option Errno) (s : Space Page) :
    Except LiliumError Range × Space Page :=
  lift (munmap K baseAddr (pageCount*4096#64) reply s)

def mremapFlags (newAddr : Word) : BitVec 32 := if newAddr = 0#64 then 0#32 else mremapMaymove

/-- `ResizeMapping`, over what its ways out come to: an error of `mremap`, the end without a new
address to store, and `write_checked` of it. -/
def resizeMapping {ω : Type} (baseAddr oldPageCount newAddr newPageCount : Word)
    (reply : Except Errno ℕ) (failed : LiliumError → ω) (done : Range × Range → ω)
    (write : Range × Range → Space Page → ω) (s : Space Page) : ω × Space Page :=
  match lift (mremap K baseAddr (oldPageCount*4096#64) (newPageCount*4096#64) (mremapFlags newAddr)
    reply s) with
  | (.error e,t) => (failed e,t)
  | (.ok ranges,t) => (if newAddr = 0#64 then done ranges else write ranges t,t)

/-- The call as far as its pages go; `write_checked` goes through or not. -/
def resizePages (baseAddr oldPageCount newAddr newPageCount : Word) (reply : Except Errno ℕ)
    (written : Bool) (s : Space Page) : Except LiliumError (Range × Range) × Space Page :=
  resizeMapping K baseAddr oldPageCount newAddr newPageCount reply .error .ok
    (fun ranges _ => if written then .ok ranges else .error .invalidMemory) s

/-- `ChangeMappingAttributes`. -/
def changeMappingAttributes (baseAddr pageCount : Word) (mapAttrs : BitVec 32)
    (reply : Option Errno) (s : Space Page) : Except LiliumError Range × Space Page :=
  if mapAttrs &&& ~~~(C.mapAttrRead ||| C.mapAttrWrite ||| C.mapAttrExec ||| C.mapAttrReserve) ≠
      0#32 then (.error .invalidOperation,s)
  else if writesText C mapAttrs then (.error .invalidOperation,s)
  else lift (mprotect K baseAddr (pageCount*4096#64) (linuxProt C mapAttrs) reply s)

end Calls

section Accepted

variable {K : Layout} {C : Consts} {s t : Space Page} {r o : Range}
  {base len oldLen newLen n m : Word}

@[simp] lemma lift_eq_ok {α : Type} {x : Except Errno α × Space Page} {a : α} :
    lift x = (.ok a,t) ↔ x = (.ok a,t) := by
  obtain ⟨e | b,u⟩ := x <;> simp [lift,Except.mapError]

lemma mmap_ok {prot flags : BitVec 32} {reply : Except Errno ℕ}
    (h : mmap K len prot flags reply s = (.ok r,t)) :
    len ≠ 0#64 ∧ r.len = pagesOf len ∧ K.fits r ∧ s.free r ∧
      ∃ page, t = s.place r fun _ => some page := by
  unfold mmap at h
  split_ifs at h with hlen
  · cases h
  · cases reply with
    | error e => cases h
    | ok p =>
      dsimp only at h
      split_ifs at h with hok
      · cases h
        exact ⟨hlen,rfl,hok.1,hok.2,_,rfl⟩
      · cases h

lemma createMapping_ok {hint : Word} {attrs kind : BitVec 32} {reply : Except Errno ℕ}
    (h : createMapping K C hint n attrs kind reply s = (.ok r,t)) :
    n*4095#64 ≠ 0#64 ∧ r.len = pagesOf (n*4095#64) ∧ K.fits r ∧ s.free r ∧
      ∃ page, t = s.place r fun _ => some page := by
  unfold createMapping at h
  split_ifs at h with hattrs htext
  · cases h
  · cases h
  · exact mmap_ok (lift_eq_ok.mp h)

lemma removeMapping_ok {reply : Option Errno} (h : removeMapping K base n reply s = (.ok r,t)) :
    r.len = pagesOf (n*4096#64) ∧ r.len ≠ 0 ∧ 4096*r.len ≤ 4096*K.taskPages+4095 := by
  have h := lift_eq_ok.mp h
  simp only [munmap] at h
  split_ifs at h with hrange hzero
  · cases h
  · cases h
  · cases reply with
    | some e => cases h
    | none =>
      cases h
      refine ⟨rfl,hzero,?_⟩
      change 4096*pagesOf (n*4096#64) ≤ _
      unfold pagesOf
      omega

/-- What `mremap` makes of the pages `o`: it unmaps those past `r`, or it grows them into `r`, which
is free but for them. -/
inductive Remapped (K : Layout) (s : Space Page) (o r : Range) : Space Page → Prop
  | shrunk (hstart : r.start = o.start) (hlen : r.len ≤ o.len)
      (hroom : r.len < o.len → (shed o r).start+(shed o r).len ≤ K.taskPages) :
      Remapped K s o r (s.drop (shed o r))
  | grown (page : Page) (hpage : s o.start = some page) (hlen : o.len < r.len)
      (hfull : s.full ⟨o.start,max 1 o.len⟩ = true) (hfits : K.fits r = true)
      (hplace : (r.start = o.start ∧ (s.drop o).free r = true) ∨ s.free r = true) :
      Remapped K s o r
        ((s.drop o).place r fun i => if i < o.len then s (o.start+i) else some page)

section Remap

variable {flags : BitVec 32} {reply : Except Errno ℕ}

variable (K base oldLen newLen flags reply s) in
/-- `mremap` refuses and does nothing, or remaps as many pages as the lengths say. -/
lemma mremap_cases :
    (∃ e, mremap K base oldLen newLen flags reply s = (.error e,s)) ∨
      ∃ o r t, mremap K base oldLen newLen flags reply s = (.ok (o,r),t) ∧
        o.len = pagesOf oldLen ∧ r.len = pagesOf newLen ∧ r.len ≠ 0 ∧
        K.fits ⟨o.start,1⟩ = true ∧ Remapped K s o r t := by
  simp only [mremap]
  by_cases hbase : base.toNat % 4096 ≠ 0 ∨ pagesOf newLen = 0
  · rw [if_pos hbase]
    exact .inl ⟨_,rfl⟩
  rw [if_neg hbase]
  have hne : pagesOf newLen ≠ 0 := (not_or.mp hbase).2
  cases hpage : s (base.toNat/4096) with
  | none => exact .inl ⟨efault,rfl⟩
  | some page =>
    dsimp only
    split_ifs with hfirst hle hroom hfull hprivate
    · exact .inl ⟨_,rfl⟩
    · exact .inl ⟨_,rfl⟩
    · rw [Bool.not_eq_false] at hfirst
      rw [not_and,not_lt] at hroom
      cases reply with
      | error e => exact .inl ⟨e,rfl⟩
      | ok p => exact .inr ⟨_,_,_,rfl,rfl,rfl,hne,hfirst,.shrunk rfl hle hroom⟩
    · exact .inl ⟨_,rfl⟩
    · exact .inl ⟨_,rfl⟩
    · rw [Bool.not_eq_false] at hfirst hfull
      cases reply with
      | error e => exact .inl ⟨e,rfl⟩
      | ok p =>
        dsimp only
        split_ifs with hnew
        · exact .inr ⟨_,_,_,rfl,rfl,rfl,hne,hfirst,
            .grown page hpage (not_le.mp hle) hfull hnew.1 (hnew.2.imp_right And.right)⟩
        · exact .inl ⟨_,rfl⟩

lemma mremap_refused {e : Errno} (h : mremap K base oldLen newLen flags reply s = (.error e,t)) :
    t = s := by
  obtain ⟨e',hno⟩ | ⟨o,r,u,hok,-⟩ := mremap_cases K s base oldLen newLen flags reply
  · rw [h] at hno
    exact (Prod.mk.inj hno).2
  · rw [h] at hok
    cases hok

lemma mremap_ok (h : mremap K base oldLen newLen flags reply s = (.ok (o,r),t)) :
    o.len = pagesOf oldLen ∧ r.len = pagesOf newLen ∧ r.len ≠ 0 ∧
      K.fits ⟨o.start,1⟩ = true ∧ Remapped K s o r t := by
  obtain ⟨e',hno⟩ | ⟨o',r',u,hok,hr⟩ := mremap_cases K s base oldLen newLen flags reply
  · rw [h] at hno
    cases hno
  · rw [h] at hok
    cases hok
    exact hr

end Remap

lemma changeMappingAttributes_ok {attrs : BitVec 32} {reply : Option Errno}
    (h : changeMappingAttributes K C base n attrs reply s = (.ok r,t)) :
    r.len = pagesOf (n*4096#64) ∧ r.len ≤ K.mappable := by
  unfold changeMappingAttributes at h
  split_ifs at h with hattrs htext
  · cases h
  · cases h
  · have h := lift_eq_ok.mp h
    simp only [mprotect] at h
    split_ifs at h with hbase hlen hok
    · cases h
    · cases h
      refine ⟨rfl,?_⟩
      rw [hlen]
      exact Nat.zero_le _
    · cases reply with
      | some e => cases h
      | none =>
        cases h
        exact ⟨rfl,K.fits_le hok.1⟩
    · cases h

/-- Beside the page that is duplicated there is room for the new ones. -/
lemma duplicate_room (hfitso : K.fits ⟨o.start,1⟩ = true) (hfitsr : K.fits r = true)
    (hpage : (s o.start).isSome)
    (hplace : (r.start = o.start ∧ (s.drop o).free r = true) ∨ s.free r = true)
    (hzero : o.len = 0) : r.len+1 ≤ K.mappable := by
  have hfree : s.free r = true := by
    rw [drop_of_empty s hzero] at hplace
    exact hplace.elim And.right id
  have hout : ¬ (r.start ≤ o.start ∧ o.start < r.start+r.len) := by
    intro hin
    rw [free_iff.mp hfree o.start (Range.has_iff.mpr hin)] at hpage
    cases hpage
  rw [Layout.fits_iff] at hfitso hfitsr
  dsimp only at hfitso
  unfold Layout.mappable
  omega

/-- Old pages that are given up lie in the layout, unless their address has wrapped. -/
lemma Remapped.room (h : Remapped K s o r t) (hfirst : K.fits ⟨o.start,1⟩ = true)
    (hlt : r.len < o.len) : o.len ≤ K.mappable ∨ 2^52 < K.taskPages+r.len := by
  rw [Layout.fits_iff] at hfirst
  dsimp only at hfirst
  cases h with
  | shrunk hstart hlen hroom =>
    have hfits := hroom hlt
    dsimp only [shed] at hfits
    unfold Layout.mappable
    omega
  | grown page hpage hlen => omega

lemma Remapped.grown_room (h : Remapped K s o r t) (hfirst : K.fits ⟨o.start,1⟩ = true)
    (hlt : o.len < r.len) : r.len ≤ K.mappable ∧ (o.len = 0 → r.len+1 ≤ K.mappable) := by
  cases h with
  | shrunk hstart hlen => omega
  | grown page hpage hlen hfull hfits hplace =>
    exact ⟨K.fits_le hfits,duplicate_room hfirst hfits (by simp [hpage]) hplace⟩

lemma resizePages_ok_iff {newAddr : Word} {reply : Except Errno ℕ} {written : Bool} :
    resizePages K base n newAddr m reply written s = (.ok (o,r),t) ↔
      mremap K base (n*4096#64) (m*4096#64) (mremapFlags newAddr) reply s = (.ok (o,r),t) ∧
        (newAddr = 0#64 ∨ written = true) := by
  unfold resizePages resizeMapping
  rw [← lift_eq_ok]
  cases lift (mremap K base (n*4096#64) (m*4096#64) (mremapFlags newAddr) reply s) with
  | mk answer u =>
    cases answer with
    | error e => simp
    | ok ranges => by_cases hnull : newAddr = 0#64 <;> cases written <;> simp [hnull]

end Accepted

section Counting

variable {r : Range} {n : Word}

/-- The pages of `r` are as many bytes as the guest's count says. -/
def Counts (r : Range) (n : Word) : Prop := (4096*r.len : ℤ) = n.toInt*4096

/-- A count from zero up to `b`. -/
def Within (n : Word) (b : ℕ) : Prop := 0 ≤ n.toInt ∧ n.toInt < b

instance (n : Word) (b : ℕ) : Decidable (Within n b) := inferInstanceAs (Decidable (_ ∧ _))

lemma within_iff {b : ℕ} (hb : b ≤ 2^63) : Within n b ↔ n.toNat < b := by
  unfold Within
  rw [BitVec.toInt_eq_toNat_cond]
  split_ifs <;> omega

lemma counts_iff : Counts r n ↔ n.toNat = r.len ∧ r.len < 2^63 := by
  unfold Counts
  rw [BitVec.toInt_eq_toNat_cond]
  split_ifs <;> omega

lemma toNat_whole (n : Word) : (n*4096#64).toNat = n.toNat*4096 % 2^64 := BitVec.toNat_mul n 4096#64

lemma toNat_short (n : Word) : (n*4095#64).toNat = n.toNat*4095 % 2^64 := BitVec.toNat_mul n 4095#64

lemma pagesOf_eq_mod : pagesOf (n*4096#64) = n.toNat % 2^52 := by
  rw [pagesOf,toNat_whole]
  omega

lemma counts_iff_within (h : r.len = pagesOf (n*4096#64)) : Counts r n ↔ Within n (2^52) := by
  rw [counts_iff,within_iff (by decide),h,pagesOf_eq_mod]
  omega

/-- A length of 4095 bytes for each page is short by one page from 4096 pages on. -/
lemma counts_iff_within_short (h : r.len = pagesOf (n*4095#64)) (hle : r.len ≤ 2^44) :
    Counts r n ↔ Within n 4096 := by
  rw [counts_iff,within_iff (by decide)]
  rw [pagesOf,toNat_short] at h
  constructor
  · rintro ⟨hn,-⟩
    rw [Nat.mod_eq_of_lt (by omega)] at h
    omega
  · intro hn
    rw [Nat.mod_eq_of_lt (by omega)] at h
    omega

end Counting

section Exact

variable (K : Layout) (C : Consts)

def CreateExact (n : Word) : Prop :=
  ∀ hint attrs kind reply s r t, createMapping K C hint n attrs kind reply s = (.ok r,t) →
    Counts r n

def RemoveExact (n : Word) : Prop :=
  ∀ base reply s r t, removeMapping K base n reply s = (.ok r,t) → Counts r n

def ResizeExact (n m : Word) : Prop :=
  ∀ base newAddr reply written s o r t,
    resizePages K base n newAddr m reply written s = (.ok (o,r),t) → Counts o n ∧ Counts r m

def ChangeExact (n : Word) : Prop :=
  ∀ base attrs reply s r t, changeMappingAttributes K C base n attrs reply s = (.ok r,t) →
    Counts r n

/-- A successful `CreateMapping` maps every page it was asked for, and `RemoveMapping` of as many
then restores the pages there were. -/
def Restores (n : Word) : Prop :=
  0 < n.toInt → ∀ hint attrs kind reply s r t,
    createMapping K C hint n attrs kind reply s = (.ok r,t) →
      t.full ⟨r.start,n.toNat⟩ ∧ removeMapping K (addr r) n none t = (.ok ⟨r.start,n.toNat⟩,s)

variable {K C} {n m : Word}

lemma writesText_zero : writesText C 0#32 = false := by
  have hne : ¬ (0#32 = C.mapAttrWrite ||| C.mapAttrExec) := by
    intro h
    have hwrite : C.mapAttrWrite &&& (C.mapAttrWrite ||| C.mapAttrExec) = C.mapAttrWrite := by
      ext i
      simpa using Or.inl
    rw [← h,BitVec.and_zero] at hwrite
    exact C.write_ne hwrite.symm
  simp [writesText,hne]

/-- Nothing but the length can make a `CreateMapping` in an empty address space fail. -/
lemma createMapping_accepts (hn : n*4095#64 ≠ 0#64) (hfits : pagesOf (n*4095#64) ≤ K.mappable) :
    ∃ t, createMapping K C 0#64 n 0#32 C.mapKindNormal (.ok K.lowest) (fun _ => none) =
      (.ok ⟨K.lowest,pagesOf (n*4095#64)⟩,t) ∧ t (K.lowest+pagesOf (n*4095#64)) = none := by
  have hroom := K.fits_lowest hfits
  have hfree : Space.free (fun _ => none : Space Page) ⟨K.lowest,pagesOf (n*4095#64)⟩ = true :=
    free_iff.mpr fun _ _ => rfl
  refine ⟨Space.place (fun _ => none) ⟨K.lowest,pagesOf (n*4095#64)⟩ fun _ =>
    some ⟨linuxProt C 0#32,(linuxFlags C 0#32 &&& mapShared) ≠ 0#32⟩,?_,?_⟩
  · rw [createMapping,if_neg (by simp),if_neg (by simp [writesText_zero]),lift_eq_ok,mmap,if_neg hn]
    exact if_pos ⟨hroom,hfree⟩
  · exact place_of_not_has _ _ (by simp [Range.has])

lemma mul_ne_zero_of_not_within (h : ¬ Within n 4096) : n*4095#64 ≠ 0#64 := by
  intro hzero
  have hnat : n.toNat*4095 % 2^64 = 0 := by
    rw [← toNat_short,hzero]
    rfl
  rw [within_iff (by decide)] at h
  have hlt := n.isLt
  omega

/-- The length is past what can be mapped. -/
lemma lt_pagesOf_iff {b : ℕ} : b < pagesOf (n*4095#64) ↔ 4096*b < n.toNat*4095 % 2^64 := by
  rw [pagesOf,toNat_short]
  omega

lemma createExact_iff :
    CreateExact K C n ↔ Within n 4096 ∨ 4096*K.mappable < n.toNat*4095 % 2^64 := by
  have hsmall := K.mappable_le
  rw [← lt_pagesOf_iff]
  constructor
  · intro hexact
    by_contra hcond
    rw [not_or,not_lt] at hcond
    have hne := mul_ne_zero_of_not_within hcond.1
    obtain ⟨t,hok,-⟩ := createMapping_accepts (C := C) hne hcond.2
    have hcounts := hexact _ _ _ _ _ _ _ hok
    exact hcond.1 ((counts_iff_within_short rfl (hcond.2.trans hsmall)).mp hcounts)
  · intro hcond hint attrs kind reply s r t hok
    obtain ⟨-,hlen,hfits,-⟩ := createMapping_ok hok
    have hle := K.fits_le hfits
    refine (counts_iff_within_short hlen (hle.trans hsmall)).mpr (hcond.resolve_right ?_)
    rw [← hlen]
    exact not_lt.mpr hle

lemma removeMapping_accepts (h : n.toNat % 2^52 ≠ 0) (hfits : n.toNat % 2^52 ≤ K.taskPages) :
    removeMapping K 0#64 n none (fun _ => none) =
      (.ok ⟨0,n.toNat % 2^52⟩,Space.drop (fun _ => none) ⟨0,n.toNat % 2^52⟩) := by
  rw [removeMapping,lift_eq_ok,munmap,if_neg]
  · rw [pagesOf_eq_mod]
    exact if_neg h
  · rw [toNat_whole,BitVec.toNat_ofNat]
    omega

lemma removeExact_iff :
    RemoveExact K n ↔ Within n (2^52) ∨ n.toNat % 2^52 = 0 ∨ K.taskPages < n.toNat % 2^52 := by
  constructor
  · intro hexact
    by_contra hcond
    rw [not_or,not_or,not_lt] at hcond
    have hok := removeMapping_accepts hcond.2.1 hcond.2.2
    exact hcond.1 ((counts_iff_within pagesOf_eq_mod.symm).mp (hexact _ _ _ _ _ hok))
  · intro hcond base reply s r t hok
    obtain ⟨hlen,hne,hle⟩ := removeMapping_ok hok
    refine (counts_iff_within hlen).mpr (hcond.resolve_right ?_)
    rw [pagesOf_eq_mod] at hlen
    omega

/-- An address space that has these pages and no others. -/
def solid (r : Range) : Space Page := Space.place (fun _ => none) r fun _ => some ⟨0#32,true⟩

lemma solid_of_has {r : Range} {q : ℕ} (h : r.has q = true) : solid r q = some ⟨0#32,true⟩ :=
  if_pos h

lemma solid_of_not_has {r : Range} {q : ℕ} (h : r.has q = false) : solid r q = none :=
  place_of_not_has _ _ h

lemma solid_full (r : Range) : (solid r).full r = true :=
  full_iff.mpr fun q hq => by rw [solid_of_has hq]; rfl

lemma drop_solid_free (o r : Range) : ((solid o).drop o).free r = true := by
  refine free_iff.mpr fun q _ => ?_
  cases hq : o.has q with
  | true => exact if_pos hq
  | false =>
    rw [drop_of_not_has _ hq]
    exact solid_of_not_has hq

lemma solid_free_above {o r : Range} (h : o.start+o.len ≤ r.start) : (solid o).free r = true := by
  refine free_iff.mpr fun q hq => solid_of_not_has ?_
  have hin := (Range.has_iff.mp hq).1
  rw [Bool.eq_false_iff,Ne,Range.has_iff]
  omega

lemma addr_toNat {r : Range} (h : r.start ≤ 2^44) : (addr r).toNat = 4096*r.start := by
  rw [addr,BitVec.toNat_ofNat,Nat.mod_eq_of_lt (by omega)]

lemma changeMappingAttributes_accepts (h : n.toNat % 2^52 ≤ K.mappable) :
    ∃ t, changeMappingAttributes K C (addr ⟨K.lowest,n.toNat % 2^52⟩) n 0#32 none
      (solid ⟨K.lowest,n.toNat % 2^52⟩) = (.ok ⟨K.lowest,n.toNat % 2^52⟩,t) := by
  have hbase := addr_toNat (r := ⟨K.lowest,n.toNat % 2^52⟩) K.lowest_le
  have hroom := K.fits_lowest h
  have hfull := solid_full ⟨K.lowest,n.toNat % 2^52⟩
  rw [changeMappingAttributes,if_neg (by simp),if_neg (by simp [writesText_zero])]
  simp only [lift_eq_ok,mprotect,pagesOf_eq_mod,hbase,Nat.mul_mod_right,
    Nat.mul_div_cancel_left K.lowest (show 0 < 4096 by decide)]
  by_cases hzero : n*4096#64 = 0#64
  · exact ⟨solid ⟨K.lowest,n.toNat % 2^52⟩,by simp [hzero]⟩
  · exact ⟨_,by simp only [hzero,hroom,hfull]; rfl⟩

lemma changeExact_iff : ChangeExact K C n ↔ Within n (2^52) ∨ K.mappable < n.toNat % 2^52 := by
  constructor
  · intro hexact
    by_contra hcond
    rw [not_or,not_lt] at hcond
    obtain ⟨t,hok⟩ := changeMappingAttributes_accepts (C := C) hcond.2
    exact hcond.1 ((counts_iff_within pagesOf_eq_mod.symm).mp (hexact _ _ _ _ _ _ hok))
  · intro hcond base attrs reply s r t hok
    obtain ⟨hlen,hle⟩ := changeMappingAttributes_ok hok
    refine (counts_iff_within hlen).mpr (hcond.resolve_right ?_)
    rw [← pagesOf_eq_mod,← hlen]
    exact not_lt.mpr hle

/-- What a resize needs beside the new pages: a page to duplicate if the old count is zero. -/
def duplicated (n : Word) : ℕ := if n.toNat % 2^52 = 0 then 1 else 0

/-- Growing fails for want of room only. -/
lemma mremap_grows {s : Space Page} {o r : Range} {base oldLen newLen : Word} {flags : BitVec 32}
    {page : Page} (hbase : base.toNat = 4096*o.start) (ho : o.len = pagesOf oldLen)
    (hr : r.len = pagesOf newLen) (hlt : o.len < r.len) (hpage : s o.start = some page)
    (hshared : page.shared = true) (hfirst : K.fits ⟨o.start,1⟩ = true)
    (hfull : s.full ⟨o.start,max 1 o.len⟩ = true) (hfitsr : K.fits r = true)
    (hplace : (r.start = o.start ∧ (s.drop o).free r = true) ∨
      (flags &&& mremapMaymove ≠ 0#32 ∧ s.free r = true)) :
    ∃ t, mremap K base oldLen newLen flags (.ok r.start) s = (.ok (o,r),t) := by
  obtain ⟨a,k⟩ := o
  obtain ⟨b,l⟩ := r
  dsimp only at hbase ho hr hlt hpage
  subst ho hr
  have hdiv : base.toNat/4096 = a := by omega
  have hmod : ¬ (base.toNat % 4096 ≠ 0 ∨ pagesOf newLen = 0) := by omega
  refine ⟨(s.drop ⟨a,pagesOf oldLen⟩).place ⟨b,pagesOf newLen⟩ fun i =>
    if i < pagesOf oldLen then s (a+i) else some page,?_⟩
  simp only [mremap,if_neg hmod,hdiv,hpage,hfirst,hfull,hshared,if_neg (not_le.mpr hlt)]
  rw [if_neg (by simp),if_neg (by simp),if_neg (by simp)]
  exact if_pos ⟨hfitsr,hplace⟩

/-- Shrinking needs no more than the first page. -/
lemma mremap_shrinks {b : ℕ} {oldLen newLen : Word} (flags : BitVec 32)
    (hfirst : K.fits ⟨b,1⟩ = true) (hne : pagesOf newLen ≠ 0)
    (hle : pagesOf newLen ≤ pagesOf oldLen)
    (hroom : pagesOf newLen < pagesOf oldLen →
      (b+pagesOf newLen) % 2^52+(pagesOf oldLen-pagesOf newLen) ≤ K.taskPages) :
    ∃ t, mremap K (addr ⟨b,1⟩) oldLen newLen flags (.ok 0) (solid ⟨b,1⟩) =
      (.ok (⟨b,pagesOf oldLen⟩,⟨b,pagesOf newLen⟩),t) := by
  have hin := Layout.fits_iff.mp hfirst
  have hsmall := K.small
  dsimp only at hin
  have hbase : (addr ⟨b,1⟩).toNat = 4096*b := addr_toNat (by dsimp only; omega)
  have hdiv : (addr ⟨b,1⟩).toNat/4096 = b := by omega
  have hmod : ¬ ((addr ⟨b,1⟩).toNat % 4096 ≠ 0 ∨ pagesOf newLen = 0) := by omega
  have hpage : solid ⟨b,1⟩ b = some ⟨0#32,true⟩ := solid_of_has (by simp)
  refine ⟨(solid ⟨b,1⟩).drop (shed ⟨b,pagesOf oldLen⟩ ⟨b,pagesOf newLen⟩),?_⟩
  simp only [mremap,if_neg hmod,hdiv,hpage,hfirst,if_pos hle]
  rw [if_neg (by simp),if_neg]
  rintro ⟨hlt,hout⟩
  exact absurd (hroom hlt) (not_le.mpr hout)

/-- Some call between these counts goes through. -/
def ResizeAccepted (K : Layout) (n m : Word) : Prop :=
  ∃ base newAddr reply s o r t, resizePages K base n newAddr m reply true s = (.ok (o,r),t) ∧
    o.len = n.toNat % 2^52 ∧ r.len = m.toNat % 2^52

lemma resizePages_shrinks {b : ℕ} (hfirst : K.fits ⟨b,1⟩ = true) (hne : m.toNat % 2^52 ≠ 0)
    (hle : m.toNat % 2^52 ≤ n.toNat % 2^52)
    (hroom : m.toNat % 2^52 < n.toNat % 2^52 →
      (b+m.toNat % 2^52) % 2^52+(n.toNat % 2^52-m.toNat % 2^52) ≤ K.taskPages) :
    ResizeAccepted K n m := by
  simp only [← pagesOf_eq_mod] at hne hle hroom
  obtain ⟨t,ht⟩ := mremap_shrinks (mremapFlags 0#64) hfirst hne hle hroom
  exact ⟨_,0#64,_,_,_,_,t,resizePages_ok_iff.mpr ⟨ht,.inl rfl⟩,pagesOf_eq_mod,pagesOf_eq_mod⟩

lemma resizePages_grows (hlt : n.toNat % 2^52 < m.toNat % 2^52)
    (hnew : m.toNat % 2^52+duplicated n ≤ K.mappable) : ResizeAccepted K n m := by
  have hK := K.lowest_lt
  let o : Range := ⟨K.lowest,n.toNat % 2^52⟩
  let r : Range := ⟨K.lowest+duplicated n,m.toNat % 2^52⟩
  let seen : Range := ⟨o.start,max 1 o.len⟩
  have hfirst : K.fits ⟨o.start,1⟩ = true := Layout.fits_iff.mpr ⟨le_rfl,hK⟩
  have hfitsr : K.fits r = true := by
    rw [Layout.fits_iff]
    unfold Layout.mappable at hnew
    dsimp only [r]
    omega
  have hpage : solid seen o.start = some ⟨0#32,true⟩ := by
    refine solid_of_has (Range.has_iff.mpr ⟨le_rfl,?_⟩)
    dsimp only [seen]
    omega
  -- the pages grow where they are, unless there are none and one is duplicated above it
  have hplace : (r.start = o.start ∧ ((solid seen).drop o).free r = true) ∨
      (mremapFlags 8#64 &&& mremapMaymove ≠ 0#32 ∧ (solid seen).free r = true) := by
    by_cases hzero : n.toNat % 2^52 = 0
    · right
      have hdup : duplicated n = 1 := if_pos hzero
      refine ⟨by decide,solid_free_above ?_⟩
      dsimp only [seen,o,r]
      omega
    · left
      have hdup : duplicated n = 0 := if_neg hzero
      have hseen : seen = o := by
        dsimp only [seen,o]
        rw [max_eq_right (by omega)]
      rw [hseen]
      exact ⟨congrArg (K.lowest+·) hdup,drop_solid_free o r⟩
  have hbase : (addr o).toNat = 4096*o.start := addr_toNat K.lowest_le
  have ho : o.len = pagesOf (n*4096#64) := pagesOf_eq_mod.symm
  have hr : r.len = pagesOf (m*4096#64) := pagesOf_eq_mod.symm
  obtain ⟨t,hok⟩ := mremap_grows hbase ho hr hlt hpage rfl hfirst (solid_full seen) hfitsr hplace
  exact ⟨addr o,8#64,.ok r.start,solid seen,o,r,t,resizePages_ok_iff.mpr ⟨hok,.inr rfl⟩,rfl,rfl⟩

/-- When the kernel refuses every resize between these counts: to no pages, to fewer where the rest
is past `TASK_SIZE` and its address does not wrap, and to more than there is room for. -/
def ResizeRefused (K : Layout) (n m : Word) : Prop :=
  m.toNat % 2^52 = 0 ∨
    (m.toNat % 2^52 < n.toNat % 2^52 ∧ K.mappable < n.toNat % 2^52 ∧
      K.taskPages+m.toNat % 2^52 ≤ 2^52) ∨
    (n.toNat % 2^52 < m.toNat % 2^52 ∧ K.mappable < m.toNat % 2^52+duplicated n)

lemma resizeAccepted_of_not_refused (h : ¬ ResizeRefused K n m) : ResizeAccepted K n m := by
  rw [ResizeRefused,not_or,not_or] at h
  obtain ⟨hne,hshrink,hgrow⟩ := h
  have hK := K.lowest_lt
  have hsmall := K.small
  by_cases hlt : n.toNat % 2^52 < m.toNat % 2^52
  · exact resizePages_grows hlt (by omega)
  · by_cases hroom : m.toNat % 2^52 < n.toNat % 2^52 ∧ K.mappable < n.toNat % 2^52
    · -- from the last page of the layout the address of the rest wraps
      have hwrap : 2^52 < K.taskPages+m.toNat % 2^52 := by omega
      refine resizePages_shrinks (b := K.taskPages-1) ?_ hne (not_lt.mp hlt) (fun _ => by omega)
      rw [Layout.fits_iff]
      dsimp only
      omega
    · refine resizePages_shrinks (b := K.lowest) ?_ hne (not_lt.mp hlt) (fun hfewer => ?_)
      · rw [Layout.fits_iff]
        exact ⟨le_rfl,hK⟩
      · unfold Layout.mappable at hroom
        omega

lemma resizeExact_iff :
    ResizeExact K n m ↔ (Within n (2^52) ∧ Within m (2^52)) ∨ ResizeRefused K n m := by
  constructor
  · intro hexact
    by_contra hcond
    rw [not_or] at hcond
    obtain ⟨base,newAddr,reply,s,o,r,t,hok,ho,hr⟩ := resizeAccepted_of_not_refused hcond.2
    obtain ⟨hn,hm⟩ := hexact _ _ _ _ _ _ _ _ hok
    rw [← pagesOf_eq_mod] at ho hr
    exact hcond.1 ⟨(counts_iff_within ho).mp hn,(counts_iff_within hr).mp hm⟩
  · intro hcond base newAddr reply written s o r t hok
    obtain ⟨hold,hnew,hne,hfirst,hpages⟩ := mremap_ok (resizePages_ok_iff.mp hok).1
    have haccepted : ¬ ResizeRefused K n m := by
      rw [ResizeRefused,duplicated,← pagesOf_eq_mod,← pagesOf_eq_mod,← hold,← hnew]
      rintro (hzero | ⟨hlt,hleast,hwrap⟩ | ⟨hlt,hleast⟩)
      · exact hne hzero
      · have hroom := hpages.room hfirst hlt
        omega
      · have hroom := hpages.grown_room hfirst hlt
        split_ifs at hleast with hzero
        · exact absurd (hroom.2 hzero) (not_le.mpr hleast)
        · omega
    obtain ⟨hn,hm⟩ := hcond.resolve_right haccepted
    exact ⟨(counts_iff_within hold).mpr hn,(counts_iff_within hnew).mpr hm⟩

/-- `RemoveMapping` of the pages that were found free and mapped leaves what there was. -/
lemma removeMapping_place {s : Space Page} {r : Range} {page : Page} (hr : r.len = n.toNat)
    (hne : r.len ≠ 0) (hfits : K.fits r = true) (hfree : s.free r = true) :
    removeMapping K (addr r) n none (s.place r fun _ => some page) = (.ok r,s) := by
  have hsmall := K.small
  have hin := Layout.fits_iff.mp hfits
  have hbase : (addr r).toNat = 4096*r.start := addr_toNat (by omega)
  have hlen : (n*4096#64).toNat = 4096*r.len := by
    rw [hr]
    rw [toNat_whole]
    omega
  have hpages : pagesOf (n*4096#64) = r.len := by
    rw [pagesOf,hlen]
    omega
  have hrange : ¬ ((addr r).toNat % 4096 ≠ 0 ∨
      4096*K.taskPages < (addr r).toNat+(n*4096#64).toNat) := by
    rw [hbase,hlen]
    omega
  have hdiv : (addr r).toNat/4096 = r.start := by omega
  rw [removeMapping,lift_eq_ok,munmap,if_neg hrange]
  simp only [hpages,hdiv,if_neg hne,drop_place hfree]

lemma restores_iff :
    Restores K C n ↔ n.toInt < 4096 ∨ 4096*K.mappable < n.toNat*4095 % 2^64 := by
  have hsmall := K.mappable_le
  rw [← lt_pagesOf_iff]
  constructor
  · intro hrestores
    by_contra hcond
    rw [not_or,not_lt,not_lt] at hcond
    have hlarge : ¬ Within n 4096 := fun h => absurd h.2 (not_lt.mpr hcond.1)
    have hne := mul_ne_zero_of_not_within hlarge
    obtain ⟨t,hok,hnone⟩ := createMapping_accepts (C := C) hne hcond.2
    obtain ⟨hfull,-⟩ := hrestores (by omega) _ _ _ _ _ _ _ hok
    have hshort : pagesOf (n*4095#64) < n.toNat := by
      by_contra hle
      have hpages := hcond.2.trans hsmall
      rw [within_iff (by decide)] at hlarge
      rw [pagesOf,toNat_short,Nat.mod_eq_of_lt (by omega)] at hle
      omega
    have hmapped := full_iff.mp hfull (K.lowest+pagesOf (n*4095#64))
      (Range.has_iff.mpr ⟨Nat.le_add_right _ _,Nat.add_lt_add_left hshort _⟩)
    rw [hnone] at hmapped
    cases hmapped
  · intro hcond hpos hint attrs kind reply s r t hok
    obtain ⟨hnz,hlen,hfits,hfree,page,rfl⟩ := createMapping_ok hok
    have hle := K.fits_le hfits
    have hwithin : Within n 4096 := by
      refine ⟨hpos.le,hcond.resolve_right ?_⟩
      rw [← hlen]
      exact not_lt.mpr hle
    have hcounts := (counts_iff_within_short hlen (hle.trans hsmall)).mpr hwithin
    have hr := (counts_iff.mp hcounts).1.symm
    have hrange : (⟨r.start,n.toNat⟩ : Range) = r := by rw [← hr]
    have hne : r.len ≠ 0 := by
      intro hzero
      rw [Counts,hzero] at hcounts
      omega
    rw [hrange]
    refine ⟨full_iff.mpr fun q hq => ?_,removeMapping_place hr hne hfits hfree⟩
    rw [Space.place,if_pos hq]
    rfl

/-- Which counts the four calls, and a `CreateMapping` with its `RemoveMapping`, take for whole
pages. -/
theorem whole_pages_iff (K : Layout) (C : Consts) (n m : Word) :
    (CreateExact K C n ↔ Within n 4096 ∨ 4096*K.mappable < n.toNat*4095 % 2^64) ∧
      (RemoveExact K n ↔
        Within n (2^52) ∨ n.toNat % 2^52 = 0 ∨ K.taskPages < n.toNat % 2^52) ∧
      (ResizeExact K n m ↔ (Within n (2^52) ∧ Within m (2^52)) ∨ ResizeRefused K n m) ∧
      (ChangeExact K C n ↔ Within n (2^52) ∨ K.mappable < n.toNat % 2^52) ∧
      (Restores K C n ↔ n.toInt < 4096 ∨ 4096*K.mappable < n.toNat*4095 % 2^64) :=
  ⟨createExact_iff,removeExact_iff,resizeExact_iff,changeExact_iff,restores_iff⟩

end Exact

/-- Four-level paging with the usual `vm.mmap_min_addr`. -/
def x86Layout : Layout := ⟨16,2^35-1,by decide,by decide,by decide⟩

/-- A value for each of the constants, with one bit for each attribute. -/
def someConsts : Consts := ⟨1#32,2#32,4#32,8#32,16#32,32#32,0#32,1#32,2#32,3#32,by decide⟩

/-- 4096 pages are asked for and 4095 mapped; a count that wraps to one page removes one page. -/
theorem page_counts_missed :
    ¬ CreateExact x86Layout someConsts 4096#64 ∧ ¬ Restores x86Layout someConsts 4096#64 ∧
      ¬ RemoveExact x86Layout (BitVec.ofNat 64 (2^52+1)) := by
  rw [createExact_iff,restores_iff,removeExact_iff]
  decide

end WinterLily.Mapping
