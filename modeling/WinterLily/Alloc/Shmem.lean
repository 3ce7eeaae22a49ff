import WinterLily.Alloc.Mmap

/-! `ShmemAlloc` of `wl-impl/src/global.rs`. A slot stands for one block together with the call in
progress on it, whichever thread makes it; calls on distinct blocks interleave at single system
calls and single operations on the map of descriptors. Empty blocks own nothing and have no slot:
growing one is an allocation. The `mmap` asks for `MAP_SHARED_VALIDATE | MAP_SYNC`, which Linux
grants for files on DAX storage only. A memfd is never on such storage, so that Linux is the case
where `dax` is false. -/
namespace WinterLily.Alloc
open WinterLily.Pages WinterLily.Transition

/-- A block that is not empty; its slice is as long as its layout. -/
structure ShmBlock where
  addr : ℕ
  layout : Layout
  deriving DecidableEq

def ShmBlock.pages (b : ShmBlock) : Range := ⟨b.addr/4096,b.layout.pageSize/4096⟩

lemma pages_at (p : ℕ) (layout : Layout) :
    ShmBlock.pages ⟨p*4096,layout⟩ = ⟨p,layout.pageSize/4096⟩ := by
  simp [ShmBlock.pages]

/-- What the slot does next: nothing, or the next operation of the call in progress. -/
inductive ShmPhase
  | vacant
  | memfdCreate (layout : Layout)
  | truncateNew (layout : Layout) (fd : ℕ)
  | mmap (layout : Layout) (fd : ℕ)
  | close (fd : ℕ)
  | insert (layout : Layout) (fd addr : ℕ)
  | idle (b : ShmBlock)
  | munmap (b : ShmBlock)
  | remove (b : ShmBlock)
  | lookup (b : ShmBlock) (new : Layout)
  | truncate (b : ShmBlock) (new : Layout) (fd : ℕ)
  | mremap (b : ShmBlock) (new : Layout)
  | update (b : ShmBlock) (new : Layout) (addr : ℕ)
  | shrink (b : ShmBlock) (new : Layout)
  | panicked
  deriving DecidableEq

/-- The memfd behind each page, the memfd behind each descriptor, the number of memfds made so far,
the field `shm_fd`, and the slots. -/
structure Shm (ι : Type*) where
  space : Space ℕ
  files : ℕ → Option ℕ
  created : ℕ
  shmFd : ℕ → Option ℕ
  slots : ι → ShmPhase

/-- `RwLock::new(HashMap::new())` with no block allocated. -/
def Shm.initial {ι : Type*} : Shm ι := ⟨fun _ => none,fun _ => none,0,fun _ => none,fun _ => .vacant⟩

/-- A call on a slot, or the next operation of the call in progress with the kernel's answer. -/
inductive ShmEvent (ι : Type*)
  | allocate (i : ι) (layout : Layout)
  | deallocate (i : ι)
  | grow (i : ι) (new : Layout)
  | shrink (i : ι) (new : Layout)
  | resume (i : ι) (reply : Option ℕ)

/-- `ShmemAlloc::fd_for_alloc`. -/
def Shm.fdForAlloc {ι : Type*} (s : Shm ι) (addr : ℕ) : Option ℕ := s.shmFd addr

/-- The kernel maps below `2^63`. -/
def userHalf (reply : Option ℕ) : Option ℕ := reply.filter fun p => p*4096 < 2^63

/-- Dropping an `OwnedFd`, if there is one. -/
def closed (files : ℕ → Option ℕ) : Option ℕ → ℕ → Option ℕ
  | none => files
  | some fd => Function.update files fd none

section Machine

variable {ι : Type*} [DecidableEq ι]

def Shm.set (s : Shm ι) (i : ι) (ph : ShmPhase) : Shm ι :=
  { s with slots := Function.update s.slots i ph }

/-- `ShmemAlloc::allocate_zeroed` up to its first system call. -/
def startAllocate (layout : Layout) : ShmPhase :=
  if layout.size = 0 then .vacant
  else if 4096 < layout.align then .vacant
  else .memfdCreate layout

/-- `ShmemAlloc::deallocate` up to its first system call. -/
def startDeallocate (b : ShmBlock) : ShmPhase := if b.layout.size = 0 then .vacant else .munmap b

/-- `ShmemAlloc::grow_zeroed` up to its first operation. -/
def startGrow (b : ShmBlock) (new : Layout) : ShmPhase :=
  if 4096 < new.align then .idle b
  else if b.layout.size = 0 then startAllocate new
  else .lookup b new

/-- `ShmemAlloc::shrink` up to its first system call. -/
def startShrink (b : ShmBlock) (new : Layout) : ShmPhase :=
  if new.size = 0 then startDeallocate b else .shrink b new

/-- The next operation of the call in progress; an error returns, with the block as it was. -/
def Shm.resume (dax : Bool) (s : Shm ι) (i : ι) (reply : Option ℕ) : Option (Shm ι) :=
  match s.slots i with
  | .vacant | .idle _ | .panicked => none
  | .memfdCreate layout =>
    match reply with
    | none => some (s.set i .vacant)
    | some fd =>
      if s.files fd = none then
        some { s.set i (.truncateNew layout fd) with
          files := Function.update s.files fd (some s.created), created := s.created+1 }
      else some (s.set i .vacant)
  | .truncateNew layout fd =>
    if reply.isSome then some (s.set i (.mmap layout fd)) else some (s.set i (.close fd))
  | .mmap layout fd =>
    match s.files fd with
    | none => some (s.set i (.close fd))
    | some m =>
      -- off DAX storage the answer is `EOPNOTSUPP`
      match s.space.mmap (if dax then userHalf reply else none) (layout.pageSize/4096) fun _ => m with
      | none => some (s.set i (.close fd))
      | some (p,space) => some { s.set i (.insert layout fd (p*4096)) with space := space }
  | .close fd => some { s.set i .vacant with files := closed s.files (some fd) }
  | .insert layout fd addr =>
    if addr = 0 then some (s.set i .panicked)
    else some { s.set i (.idle ⟨addr,layout⟩) with
      shmFd := Function.update s.shmFd addr (some fd), files := closed s.files (s.shmFd addr) }
  | .munmap b =>
    -- the result of `munmap` is dropped
    if reply.isSome then some { s.set i (.remove b) with space := s.space.drop b.pages }
    else some (s.set i (.remove b))
  | .remove b =>
    some { s.set i .vacant with
      shmFd := Function.update s.shmFd b.addr none, files := closed s.files (s.shmFd b.addr) }
  | .lookup b new =>
    match s.fdForAlloc b.addr with
    | none => some (s.set i .panicked)
    | some fd => some (s.set i (.truncate b new fd))
  | .truncate b new _ =>
    if reply.isSome then some (s.set i (.mremap b new)) else some (s.set i (.idle b))
  | .mremap b new =>
    match s.space (b.addr/4096) with
    | none => some (s.set i (.idle b))
    | some m =>
      match s.space.mremap (userHalf reply) b.pages (new.pageSize/4096) fun _ => m with
      | none => some (s.set i (.idle b))
      | some (p,space) =>
        if 2^63 ≤ p*4096 then some { s.set i (.idle b) with space := space }
        else some { s.set i (.update b new (p*4096)) with space := space }
  | .update b new addr =>
    match s.shmFd b.addr with
    | none => some (s.set i .panicked)
    | some fd =>
      let shmFd := Function.update s.shmFd b.addr none
      if addr = 0 then
        some { s.set i .panicked with shmFd := shmFd, files := closed s.files (some fd) }
      else some { s.set i (.idle ⟨addr,new⟩) with
        shmFd := Function.update shmFd addr (some fd), files := closed s.files (shmFd addr) }
  | .shrink b new =>
    -- without `MREMAP_MAYMOVE` the excess pages go and the address stays
    if reply.isSome then
      some { s.set i (.idle ⟨b.addr,new⟩) with
        space := s.space.drop ⟨b.addr/4096+new.pageSize/4096,
          b.layout.pageSize/4096-new.pageSize/4096⟩ }
    else some (s.set i (.idle b))

def shmStep (dax : Bool) (s : Shm ι) : ShmEvent ι → Option (Shm ι)
  | .allocate i layout =>
    match s.slots i with
    | .vacant => some (s.set i (startAllocate layout))
    | _ => none
  | .deallocate i =>
    match s.slots i with
    | .idle b => some (s.set i (startDeallocate b))
    | _ => none
  | .grow i new =>
    match s.slots i with
    | .idle b => if b.layout.size ≤ new.size then some (s.set i (startGrow b new)) else none
    | _ => none
  | .shrink i new =>
    match s.slots i with
    | .idle b => if new.size ≤ b.layout.size then some (s.set i (startShrink b new)) else none
    | _ => none
  | .resume i reply => s.resume dax i reply

end Machine

/-- A block with no call in progress has its memfd in the map, and no call has panicked. -/
structure DescriptorsRight {ι : Type*} (s : Shm ι) : Prop where
  backing : ∀ i b, s.slots i = .idle b → ∃ fd m, s.fdForAlloc b.addr = some fd ∧
    s.files fd = some m ∧ ∀ q, b.pages.has q = true → s.space q = some m
  unpanicked : ∀ i, s.slots i ≠ .panicked

/-- No block was ever allocated. -/
structure NoneLive {ι : Type*} (s : Shm ι) : Prop where
  idle : ∀ i b, s.slots i ≠ .idle b
  shmFd : ∀ a, s.shmFd a = none

/-- The address whose entry the slot has yet to update after a `munmap` or an `mremap`. -/
def ShmPhase.pending : ShmPhase → Option ℕ
  | .remove b | .update b _ _ => some b.addr
  | _ => none

/-- The slot is about to ask for an address. -/
def ShmPhase.maps : ShmPhase → Bool
  | .mmap _ _ | .mremap _ _ => true
  | _ => false

/-- The kernel gives out no address whose entry is still to be updated. -/
def ReusesSettled {ι : Type*} (s : Shm ι) : ShmEvent ι → Prop
  | .resume i (some p) => (s.slots i).maps = true → ∀ j, (s.slots j).pending ≠ some (p*4096)
  | _ => True

instance {ι : Type*} [Fintype ι] (s : Shm ι) : DecidablePred (ReusesSettled s)
  | .resume _ (some _) => inferInstanceAs (Decidable (_ → _))
  | .resume _ none | .allocate _ _ | .deallocate _ | .grow _ _ | .shrink _ _ =>
    inferInstanceAs (Decidable True)

section Ownership

/-- Where the descriptor of a slot is: in the hands of the call, or in the map. -/
inductive Holding
  | own (fd : ℕ)
  | entry (addr : ℕ)
  deriving DecidableEq

def ShmPhase.holding : ShmPhase → Option Holding
  | .vacant | .memfdCreate _ | .panicked => none
  | .truncateNew _ fd | .mmap _ fd | .close fd | .insert _ fd _ => some (.own fd)
  | .idle b | .munmap b | .remove b | .lookup b _ | .truncate b _ _ | .mremap b _ | .update b _ _
  | .shrink b _ => some (.entry b.addr)

/-- The block whose pages the slot has mapped. -/
def ShmPhase.mapping : ShmPhase → Option ShmBlock
  | .insert layout _ addr => some ⟨addr,layout⟩
  | .update _ new addr => some ⟨addr,new⟩
  | .idle b | .munmap b | .lookup b _ | .truncate b _ _ | .mremap b _ | .shrink b _ => some b
  | _ => none

/-- No call was made for an empty layout. -/
def ShmPhase.Asks : ShmPhase → Prop
  | .memfdCreate layout | .truncateNew layout _ | .mmap layout _ => layout.size ≠ 0
  | .lookup _ new | .truncate _ new _ | .mremap _ new => new.size ≠ 0
  | .shrink b new => new.size ≠ 0 ∧ new.size ≤ b.layout.size
  | .panicked => False
  | _ => True

variable {ι : Type*}

def Shm.fdOf (s : Shm ι) : Holding → Option ℕ
  | .own fd => some fd
  | .entry a => s.shmFd a

def OwnsAddr (ph : ShmPhase) (a : ℕ) : Prop :=
  ph.holding = some (.entry a) ∨ ∃ b, ph.mapping = some b ∧ b.addr = a

def OwnsPage (ph : ShmPhase) (q : ℕ) : Prop := ∃ b, ph.mapping = some b ∧ b.pages.has q = true

def OwnsFd (s : Shm ι) (ph : ShmPhase) (fd : ℕ) : Prop :=
  ∃ h, ph.holding = some h ∧ s.fdOf h = some fd

/-- The whole block is mapped from the memfd. -/
structure Backed (space : Space ℕ) (b : ShmBlock) (m : ℕ) : Prop where
  paged : b.addr % 4096 = 0
  pos : 0 < b.addr
  size : b.layout.size ≠ 0
  pages : ∀ q, b.pages.has q = true → space q = some m

structure Good (s : Shm ι) (ph : ShmPhase) : Prop where
  asks : ph.Asks
  backed : ∀ h, ph.holding = some h → ∃ fd m, s.fdOf h = some fd ∧ s.files fd = some m ∧
    ∀ b, ph.mapping = some b → Backed s.space b m

structure Shm.Inv (s : Shm ι) : Prop where
  good : ∀ i, Good s (s.slots i)
  addrs : Exclusive fun i => OwnsAddr (s.slots i)
  fds : Exclusive fun i => OwnsFd s (s.slots i)
  pages : Exclusive fun i => OwnsPage (s.slots i)
  entries : ∀ a fd, s.shmFd a = some fd → ∃ i, (s.slots i).holding = some (.entry a)

variable {s t : Shm ι} {i j : ι} {ph : ShmPhase} {b : ShmBlock}

lemma not_ownsPage (h : ph.mapping = none) (q : ℕ) : ¬ OwnsPage ph q := by
  intro hq
  obtain ⟨b,hb,-⟩ := hq
  rw [h] at hb
  cases hb

lemma exists_holding (h : ph.mapping = some b) : ∃ k, ph.holding = some k := by
  cases ph <;> first | exact ⟨_,rfl⟩ | cases h

lemma Shm.Inv.backed_of_mapping (h : s.Inv) (hb : (s.slots j).mapping = some b) :
    ∃ m, Backed s.space b m := by
  obtain ⟨k,hk⟩ := exists_holding hb
  obtain ⟨_,m,-,-,hback⟩ := (h.good j).backed k hk
  exact ⟨m,hback b hb⟩

/-- The page a block starts with is one of its pages. -/
lemma Backed.has_start {space : Space ℕ} {m : ℕ} (h : Backed space b m) : b.pages.has (b.addr/4096) = true := by
  have hsize := h.size
  have hup : b.layout.size ≤ b.layout.pageSize := Align.le_up (by decide)
  have hmod := pageSize_mod b.layout
  rw [Range.has_iff]
  refine ⟨Nat.le_refl _,?_⟩
  change b.addr/4096 < b.addr/4096+b.layout.pageSize/4096
  omega

lemma Shm.Inv.files_of_owns (h : s.Inv) {fd : ℕ} (hfd : OwnsFd s (s.slots j) fd) :
    ∃ m, s.files fd = some m := by
  obtain ⟨k,hk,hof⟩ := hfd
  obtain ⟨fd',m,hof',hm,-⟩ := (h.good j).backed k hk
  rw [hof,Option.some.injEq] at hof'
  exact ⟨m,hof' ▸ hm⟩

lemma Shm.Inv.mapped_of_owns (h : s.Inv) {q : ℕ} (hq : OwnsPage (s.slots j) q) :
    ∃ m, s.space q = some m := by
  obtain ⟨b,hb,hq⟩ := hq
  obtain ⟨m,hback⟩ := h.backed_of_mapping hb
  exact ⟨m,hback.pages q hq⟩

/-- What a slot owns at an address: its first page, or an entry it has yet to update. -/
lemma Shm.Inv.page_or_pending (h : s.Inv) {a : ℕ} (ha : OwnsAddr (s.slots j) a) :
    OwnsPage (s.slots j) (a/4096) ∨ (s.slots j).pending = some a := by
  have hpage : ∀ b, (s.slots j).mapping = some b → b.addr = a → OwnsPage (s.slots j) (a/4096) := by
    intro b hb hba
    obtain ⟨m,hback⟩ := h.backed_of_mapping hb
    exact ⟨b,hb,hba ▸ hback.has_start⟩
  cases ha with
  | inr hmap =>
    obtain ⟨b,hb,hba⟩ := hmap
    exact .inl (hpage b hb hba)
  | inl hentry =>
    cases hph : s.slots j with
    | vacant | memfdCreate | panicked | truncateNew | mmap | close | insert =>
      rw [hph] at hentry
      cases hentry
    | remove b | update b =>
      rw [hph] at hentry
      cases hentry
      exact .inr rfl
    | idle b | munmap b | lookup b | truncate b | mremap b | shrink b =>
      rw [hph] at hentry hpage
      cases hentry
      exact .inl (hpage b rfl rfl)

/-- A step of slot `i` that leaves alone what the other slots own. -/
lemma Shm.Inv.step (h : s.Inv) [DecidableEq ι] (i : ι) (ph : ShmPhase)
    (hslots : t.slots = Function.update s.slots i ph)
    (hmap : ∀ j ≠ i, ∀ a, OwnsAddr (s.slots j) a → t.shmFd a = s.shmFd a)
    (hfiles : ∀ j ≠ i, ∀ fd, OwnsFd s (s.slots j) fd → t.files fd = s.files fd)
    (hspace : ∀ j ≠ i, ∀ q, OwnsPage (s.slots j) q → t.space q = s.space q)
    (haddr : ∀ a, OwnsAddr ph a → ∀ j ≠ i, ¬ OwnsAddr (s.slots j) a)
    (hfd : ∀ fd, OwnsFd t ph fd → ∀ j ≠ i, ¬ OwnsFd s (s.slots j) fd)
    (hpage : ∀ q, OwnsPage ph q → ∀ j ≠ i, ¬ OwnsPage (s.slots j) q) (hgood : Good t ph)
    (hentries : ∀ a fd, t.shmFd a = some fd →
      ph.holding = some (.entry a) ∨ ∃ j ≠ i, (s.slots j).holding = some (.entry a)) : t.Inv := by
  have hself : t.slots i = ph := by rw [hslots,Function.update_self]
  have hother : ∀ j ≠ i, t.slots j = s.slots j := fun j hj => by
    rw [hslots,Function.update_of_ne hj]
  have hof : ∀ j ≠ i, ∀ k, (s.slots j).holding = some k → t.fdOf k = s.fdOf k := by
    intro j hj k hk
    cases k with
    | own fd => rfl
    | entry a => exact hmap j hj a (.inl hk)
  refine ⟨fun j => ?_,h.addrs.update i ?_ ?_,h.fds.update i ?_ ?_,h.pages.update i ?_ ?_,?_⟩
  · by_cases hj : j = i
    · rw [hj,hself]
      exact hgood
    · rw [hother j hj]
      refine ⟨(h.good j).asks,fun k hk => ?_⟩
      obtain ⟨fd,m,hfd,hm,hback⟩ := (h.good j).backed k hk
      refine ⟨fd,m,(hof j hj k hk).trans hfd,(hfiles j hj fd ⟨k,hk,hfd⟩).trans hm,fun b hb => ?_⟩
      have hold := hback b hb
      exact ⟨hold.paged,hold.pos,hold.size,
        fun q hq => (hspace j hj q ⟨b,hb,hq⟩).trans (hold.pages q hq)⟩
  · intro j hj a ha
    rwa [hother j hj] at ha
  · rw [hself]
    exact haddr
  · intro j hj fd hfd
    rw [hother j hj] at hfd
    obtain ⟨k,hk,hof'⟩ := hfd
    exact ⟨k,hk,(hof j hj k hk).symm.trans hof'⟩
  · rw [hself]
    exact hfd
  · intro j hj q hq
    rwa [hother j hj] at hq
  · rw [hself]
    exact hpage
  · intro a fd ha
    obtain hmine | ⟨j,hj,hentry⟩ := hentries a fd ha
    · exact ⟨i,by rw [hself]; exact hmine⟩
    · exact ⟨j,by rw [hother j hj]; exact hentry⟩

/-- An entry that is not of slot `i` is of another slot. -/
lemma Shm.Inv.entries_of_ne (h : s.Inv) {a fd : ℕ} (ha : s.shmFd a = some fd) (i : ι)
    (hi : (s.slots i).holding ≠ some (.entry a)) :
    ∃ j ≠ i, (s.slots j).holding = some (.entry a) := by
  obtain ⟨j,hj⟩ := h.entries a fd ha
  exact ⟨j,fun hji => hi (hji ▸ hj),hj⟩

/-- The entries that are left when slot `i` gives its own up. -/
lemma Shm.Inv.entries_of_cleared (h : s.Inv) {a fd : ℕ} (i : ι)
    (ha : (if (s.slots i).holding = some (.entry a) then none else s.shmFd a) = some fd) :
    ∃ j ≠ i, (s.slots j).holding = some (.entry a) := by
  by_cases hentry : (s.slots i).holding = some (.entry a)
  · rw [if_pos hentry] at ha
    cases ha
  · rw [if_neg hentry] at ha
    exact h.entries_of_ne ha i hentry

/-- An entry for a mapping is that of its own slot. -/
lemma Shm.Inv.no_entry (h : s.Inv) (hmapping : (s.slots i).mapping = some b)
    (hne : (s.slots i).holding ≠ some (.entry b.addr)) : s.shmFd b.addr = none := by
  cases hentry : s.shmFd b.addr with
  | none => rfl
  | some fd =>
    obtain ⟨j,hj,hkey⟩ := h.entries_of_ne hentry i hne
    exact absurd (.inl hkey) (h.addrs.not_owns (.inr ⟨b,hmapping,rfl⟩) hj)

lemma Shm.Inv.descriptorsRight (h : s.Inv) : DescriptorsRight s := by
  refine ⟨fun i b hb => ?_,fun i hi => ?_⟩
  · obtain ⟨fd,m,hfd,hm,hback⟩ := (h.good i).backed (.entry b.addr) (by rw [hb]; rfl)
    exact ⟨fd,m,hfd,hm,(hback b (by rw [hb]; rfl)).pages⟩
  · have hasks := (h.good i).asks
    rw [hi] at hasks
    exact hasks

lemma shmInitial_inv : (Shm.initial (ι := ι)).Inv := by
  refine ⟨fun _ => ⟨trivial,nofun⟩,?_,?_,?_,nofun⟩
  · intro i j a ha
    cases ha with
    | inl hentry => cases hentry
    | inr hex =>
      obtain ⟨b,hb,-⟩ := hex
      cases hb
  · intro i j fd hfd
    obtain ⟨k,hk,-⟩ := hfd
    cases hk
  · exact fun i j q hq => absurd hq (not_ownsPage rfl q)

end Ownership

section Operations

variable {ι : Type*} [DecidableEq ι] {s t : Shm ι} {i : ι} {ph : ShmPhase} {b : ShmBlock}
  {layout new : Layout} {fd addr p m : ℕ} {dax : Bool}

/-- A step of slot `i` that keeps its descriptor and changes mappings only. -/
lemma Shm.Inv.respace (h : s.Inv) (space : Space ℕ) (hhold : ph.holding = (s.slots i).holding)
    (hspace : ∀ j ≠ i, ∀ q, OwnsPage (s.slots j) q → space q = s.space q)
    (haddr : ∀ b, ph.mapping = some b → ∀ j ≠ i, ¬ OwnsAddr (s.slots j) b.addr)
    (hpage : ∀ b, ph.mapping = some b → ∀ q, b.pages.has q = true →
      ∀ j ≠ i, ¬ OwnsPage (s.slots j) q) (hasks : ph.Asks)
    (hback : ∀ k fd m, (s.slots i).holding = some k → s.fdOf k = some fd → s.files fd = some m →
      (∀ b, (s.slots i).mapping = some b → Backed s.space b m) →
        ∀ b, ph.mapping = some b → Backed space b m) :
    Shm.Inv { s.set i ph with space := space } := by
  apply h.step i ph rfl
  · exact fun _ _ _ _ => rfl
  · exact fun _ _ _ _ => rfl
  · exact hspace
  · intro a ha j hj
    cases ha with
    | inl hentry => exact h.addrs.not_owns (.inl (hhold ▸ hentry)) hj
    | inr hex =>
      obtain ⟨b,hb,rfl⟩ := hex
      exact haddr b hb j hj
  · intro fd hown j hj
    obtain ⟨k,hk,hfd⟩ := hown
    exact h.fds.not_owns ⟨k,hhold ▸ hk,hfd⟩ hj
  · intro q hown
    obtain ⟨b,hb,hq⟩ := hown
    exact hpage b hb q hq
  · refine ⟨hasks,fun k hk => ?_⟩
    rw [hhold] at hk
    obtain ⟨fd,m,hfd,hm,hold⟩ := (h.good i).backed k hk
    exact ⟨fd,m,hfd,hm,hback k fd m hk hfd hm hold⟩
  · intro a fd ha
    by_cases hi : (s.slots i).holding = some (.entry a)
    · exact .inl (hhold.trans hi)
    · exact .inr (h.entries_of_ne ha i hi)

/-- A step within a slot that changes nothing but what it does next. -/
lemma Shm.Inv.quiet (h : s.Inv) (hhold : ph.holding = (s.slots i).holding)
    (hmap : ∀ b, ph.mapping = some b → (s.slots i).mapping = some b) (hasks : ph.Asks) :
    (s.set i ph).Inv := by
  apply h.respace s.space hhold
  · exact fun _ _ _ _ => rfl
  · exact fun b hb j hj => h.addrs.not_owns (.inr ⟨b,hmap b hb,rfl⟩) hj
  · exact fun b hb q hq j hj => h.pages.not_owns ⟨b,hmap b hb,hq⟩ hj
  · exact hasks
  · exact fun _ _ _ _ _ _ hold b hb => hold b (hmap b hb)

lemma Shm.Inv.created (h : s.Inv) (hph : s.slots i = .memfdCreate layout)
    (hfd : s.files fd = none) :
    Shm.Inv { s.set i (.truncateNew layout fd) with
      files := Function.update s.files fd (some s.created), created := s.created+1 } := by
  have hfresh : ∀ j, ¬ OwnsFd s (s.slots j) fd := by
    intro j hj
    obtain ⟨m,hm⟩ := h.files_of_owns hj
    rw [hfd] at hm
    cases hm
  have hasks := (h.good i).asks
  rw [hph] at hasks
  apply h.step i (.truncateNew layout fd) rfl
  · exact fun _ _ _ _ => rfl
  · intro j _ fd' hown
    apply Function.update_of_ne
    intro heq
    exact hfresh j (heq ▸ hown)
  · exact fun _ _ _ _ => rfl
  · intro a ha
    cases ha with
    | inl hentry => cases hentry
    | inr hmap =>
      obtain ⟨b,hb,-⟩ := hmap
      cases hb
  · intro fd' hown j _
    obtain ⟨k,hk,hof⟩ := hown
    cases hk
    cases hof
    exact hfresh j
  · exact fun q hq => absurd hq (not_ownsPage rfl q)
  · refine ⟨hasks,fun k hk => ?_⟩
    cases hk
    exact ⟨fd,s.created,rfl,Function.update_self _ _ _,nofun⟩
  · exact fun a _ ha => .inr (h.entries_of_ne ha i (by rw [hph]; nofun))

/-- The slot gives up its descriptor and its entry. -/
lemma Shm.Inv.vacate (h : s.Inv) (i : ι) (shmFd files : ℕ → Option ℕ)
    (hmap : ∀ a, shmFd a = if (s.slots i).holding = some (.entry a) then none else s.shmFd a)
    (hfiles : ∀ fd, ¬ OwnsFd s (s.slots i) fd → files fd = s.files fd) :
    Shm.Inv { s.set i .vacant with shmFd := shmFd, files := files } := by
  apply h.step i .vacant rfl
  · intro j hj a hown
    change shmFd a = s.shmFd a
    rw [hmap,if_neg]
    exact fun hentry => h.addrs.not_owns (.inl hentry) hj hown
  · intro j hj fd hown
    exact hfiles fd fun hmine => h.fds.not_owns hmine hj hown
  · exact fun _ _ _ _ => rfl
  · intro a ha
    cases ha with
    | inl hentry => cases hentry
    | inr hex =>
      obtain ⟨b,hb,-⟩ := hex
      cases hb
  · intro fd hown
    obtain ⟨k,hk,-⟩ := hown
    cases hk
  · exact fun q hq => absurd hq (not_ownsPage rfl q)
  · exact ⟨trivial,nofun⟩
  · intro a fd ha
    change shmFd a = some fd at ha
    rw [hmap] at ha
    exact .inr (h.entries_of_cleared i ha)

/-- The slot enters its mapping and its descriptor into the map, in place of any entry it had. -/
lemma Shm.Inv.enter (h : s.Inv) (hmapping : (s.slots i).mapping = some b)
    (hown : OwnsFd s (s.slots i) fd) (shmFd : ℕ → Option ℕ) (hself : shmFd b.addr = some fd)
    (hother : ∀ a ≠ b.addr,
      shmFd a = if (s.slots i).holding = some (.entry a) then none else s.shmFd a) :
    Shm.Inv { s.set i (.idle b) with shmFd := shmFd } := by
  have hmine : OwnsAddr (s.slots i) b.addr := .inr ⟨b,hmapping,rfl⟩
  apply h.step i (.idle b) rfl
  · intro j hj a ha
    change shmFd a = s.shmFd a
    rw [hother a fun heq => h.addrs.not_owns hmine hj (heq ▸ ha),if_neg]
    exact fun hentry => h.addrs.not_owns (.inl hentry) hj ha
  · exact fun _ _ _ _ => rfl
  · exact fun _ _ _ _ => rfl
  · intro a ha j hj
    have haddr : b.addr = a := by
      cases ha with
      | inl hentry => exact Holding.entry.inj (Option.some.inj hentry)
      | inr hex =>
        obtain ⟨c,hc,hca⟩ := hex
        cases hc
        exact hca
    exact haddr ▸ h.addrs.not_owns hmine hj
  · intro fd' hfd j hj
    obtain ⟨k,hk,hof⟩ := hfd
    cases hk
    obtain rfl : fd = fd' := Option.some.inj (hself.symm.trans hof)
    exact h.fds.not_owns hown hj
  · intro q hq j hj
    obtain ⟨c,hc,hq⟩ := hq
    cases hc
    exact h.pages.not_owns ⟨b,hmapping,hq⟩ hj
  · refine ⟨trivial,fun k hk => ?_⟩
    cases hk
    obtain ⟨k,hk,hof⟩ := hown
    obtain ⟨fd',m,hof',hm,hback⟩ := (h.good i).backed k hk
    obtain rfl : fd = fd' := Option.some.inj (hof.symm.trans hof')
    refine ⟨fd,m,hself,hm,fun c hc => ?_⟩
    cases hc
    exact hback b hmapping
  · intro a fd' ha
    by_cases haddr : a = b.addr
    · exact .inl (haddr ▸ rfl)
    · change shmFd a = some fd' at ha
      rw [hother a haddr] at ha
      exact .inr (h.entries_of_cleared i ha)

lemma Shm.Inv.mapped (h : s.Inv) (hph : s.slots i = .mmap layout fd) (hm : s.files fd = some m)
    (hp : 0 < p) (hfree : s.space.free ⟨p,layout.pageSize/4096⟩ = true)
    (hsettled : ∀ j, (s.slots j).pending ≠ some (p*4096)) :
    Shm.Inv { s.set i (.insert layout fd (p*4096)) with
      space := s.space.place ⟨p,layout.pageSize/4096⟩ fun _ => some m } := by
  have hunowned : ∀ j q, Range.has ⟨p,layout.pageSize/4096⟩ q = true → ¬ OwnsPage (s.slots j) q := by
    intro j q hq hown
    obtain ⟨m,hm⟩ := h.mapped_of_owns hown
    rw [free_iff.mp hfree q hq] at hm
    cases hm
  have hasks := (h.good i).asks
  rw [hph] at hasks
  have hnew : Backed (s.space.place ⟨p,layout.pageSize/4096⟩ fun _ => some m) ⟨p*4096,layout⟩ m := by
    refine ⟨Nat.mul_mod_left p 4096,Nat.mul_pos hp (by decide),hasks,fun q hq => ?_⟩
    rw [pages_at] at hq
    exact if_pos hq
  apply h.respace _ (by rw [hph]; rfl)
  · intro j _ q hown
    obtain ⟨m,hm⟩ := h.mapped_of_owns hown
    exact place_of_mapped hfree _ (by rw [hm]; rfl)
  · intro b hb j _ hown
    cases hb
    cases h.page_or_pending hown with
    | inl hpage =>
      have hstart := hnew.has_start
      rw [pages_at] at hstart
      exact hunowned j _ hstart hpage
    | inr hpend => exact hsettled j hpend
  · intro b hb q hq j _
    cases hb
    rw [pages_at] at hq
    exact hunowned j q hq
  · trivial
  · intro k fd' m' hk hfd hm' _ b hb
    rw [hph] at hk
    cases hk
    cases hfd
    cases hb
    rw [hm] at hm'
    cases hm'
    exact hnew

lemma Shm.Inv.closed (h : s.Inv) (hph : s.slots i = .close fd) :
    Shm.Inv { s.set i .vacant with files := closed s.files (some fd) } := by
  apply h.vacate i s.shmFd
  · intro a
    rw [hph]
    rfl
  · intro fd' hown
    apply Function.update_of_ne
    intro heq
    exact hown ⟨.own fd,by rw [hph]; rfl,congrArg some heq.symm⟩

lemma Shm.Inv.removed (h : s.Inv) (hph : s.slots i = .remove b) :
    Shm.Inv { s.set i .vacant with
      shmFd := Function.update s.shmFd b.addr none
      files := Alloc.closed s.files (s.shmFd b.addr) } := by
  have hhold : (s.slots i).holding = some (.entry b.addr) := by rw [hph]; rfl
  obtain ⟨fd,m,hfd,-,-⟩ := (h.good i).backed _ hhold
  have hfd : s.shmFd b.addr = some fd := hfd
  apply h.vacate i
  · intro a
    rw [hhold,Function.update_apply]
    simp [eq_comm]
  · intro fd' hown
    rw [hfd]
    apply Function.update_of_ne
    intro heq
    exact hown ⟨_,hhold,heq ▸ hfd⟩

/-- No entry is overwritten by the one for a fresh mapping. -/
lemma Shm.Inv.inserted (h : s.Inv) (hph : s.slots i = .insert layout fd addr) :
    addr ≠ 0 ∧ Shm.Inv { s.set i (.idle ⟨addr,layout⟩) with
      shmFd := Function.update s.shmFd addr (some fd)
      files := Alloc.closed s.files (s.shmFd addr) } := by
  have hmapping : (s.slots i).mapping = some ⟨addr,layout⟩ := by rw [hph]; rfl
  have hhold : (s.slots i).holding = some (.own fd) := by rw [hph]; rfl
  obtain ⟨m,hback⟩ := h.backed_of_mapping hmapping
  have hnone : s.shmFd addr = none := h.no_entry hmapping (by rw [hhold]; nofun)
  refine ⟨hback.pos.ne',?_⟩
  rw [hnone]
  apply h.enter hmapping ⟨_,hhold,rfl⟩
  · exact Function.update_self _ _ _
  · intro a ha
    rw [hhold,Function.update_of_ne ha]
    rfl

lemma Shm.Inv.unmapped (h : s.Inv) (hph : s.slots i = .munmap b) :
    Shm.Inv { s.set i (.remove b) with space := s.space.drop b.pages } := by
  apply h.respace _ (by rw [hph]; rfl)
  · intro j hj q hown
    apply drop_of_not_has
    by_contra hin
    exact h.pages.not_owns ⟨b,by rw [hph]; rfl,by simpa using hin⟩ hj hown
  · nofun
  · nofun
  · trivial
  · nofun

lemma Shm.Inv.remapped (h : s.Inv) (hph : s.slots i = .mremap b new)
    (hm : s.space (b.addr/4096) = some m) (hp : 0 < p)
    (hfree : (s.space.drop b.pages).free ⟨p,new.pageSize/4096⟩ = true)
    (hsettled : ∀ j, (s.slots j).pending ≠ some (p*4096)) :
    Shm.Inv { s.set i (.update b new (p*4096)) with
      space := (s.space.drop b.pages).place ⟨p,new.pageSize/4096⟩ fun i =>
        if i < b.pages.len then s.space (b.pages.start+i) else some m } := by
  have hmapping : (s.slots i).mapping = some b := by rw [hph]; rfl
  have hkept : ∀ j ≠ i, ∀ q, OwnsPage (s.slots j) q →
      s.space.drop b.pages q = s.space q ∧ (s.space.drop b.pages q).isSome = true := by
    intro j hj q hown
    obtain ⟨m,hm⟩ := h.mapped_of_owns hown
    have hout : s.space.drop b.pages q = s.space q := by
      apply drop_of_not_has
      by_contra hin
      exact h.pages.not_owns ⟨b,hmapping,by simpa using hin⟩ hj hown
    rw [hout,hm]
    exact ⟨rfl,rfl⟩
  have hunowned : ∀ j ≠ i, ∀ q, Range.has ⟨p,new.pageSize/4096⟩ q = true →
      ¬ OwnsPage (s.slots j) q := by
    intro j hj q hq hown
    have hsome := (hkept j hj q hown).2
    rw [free_iff.mp hfree q hq] at hsome
    cases hsome
  have hasks := (h.good i).asks
  rw [hph] at hasks
  -- the memfd of the mapping is the one its first page shows
  have hnew : ∀ m', Backed s.space b m' → Backed ((s.space.drop b.pages).place
      ⟨p,new.pageSize/4096⟩ fun i => if i < b.pages.len then s.space (b.pages.start+i) else some m)
        ⟨p*4096,new⟩ m' := by
    intro m' hback
    refine ⟨Nat.mul_mod_left p 4096,Nat.mul_pos hp (by decide),hasks,fun q hq => ?_⟩
    rw [pages_at] at hq
    refine (if_pos hq).trans ?_
    dsimp only
    by_cases hlen : q-p < b.pages.len
    · rw [if_pos hlen]
      exact hback.pages _ (Range.has_iff.mpr ⟨Nat.le_add_right _ _,Nat.add_lt_add_left hlen _⟩)
    · rw [if_neg hlen,← hm]
      exact hback.pages _ hback.has_start
  apply h.respace _ (by rw [hph]; rfl)
  · intro j hj q hown
    obtain ⟨hout,hsome⟩ := hkept j hj q hown
    rw [place_of_mapped hfree _ hsome,hout]
  · intro c hc j hj hown
    cases hc
    cases h.page_or_pending hown with
    | inl hpage =>
      obtain ⟨m',hback⟩ := h.backed_of_mapping hmapping
      have hstart := (hnew m' hback).has_start
      rw [pages_at] at hstart
      exact hunowned j hj _ hstart hpage
    | inr hpend => exact hsettled j hpend
  · intro c hc q hq j hj
    cases hc
    rw [pages_at] at hq
    exact hunowned j hj q hq
  · trivial
  · intro k fd m' _ _ _ hold c hc
    cases hc
    exact hnew m' (hold b hmapping)

lemma Shm.Inv.updated (h : s.Inv) (hph : s.slots i = .update b new addr)
    (hfd : s.shmFd b.addr = some fd) :
    addr ≠ 0 ∧ Shm.Inv { s.set i (.idle ⟨addr,new⟩) with
      shmFd := Function.update (Function.update s.shmFd b.addr none) addr (some fd)
      files := Alloc.closed s.files (Function.update s.shmFd b.addr none addr) } := by
  have hmapping : (s.slots i).mapping = some ⟨addr,new⟩ := by rw [hph]; rfl
  have hhold : (s.slots i).holding = some (.entry b.addr) := by rw [hph]; rfl
  obtain ⟨m,hback⟩ := h.backed_of_mapping hmapping
  have hnone : Function.update s.shmFd b.addr none addr = none := by
    by_cases haddr : addr = b.addr
    · rw [haddr,Function.update_self]
    · rw [Function.update_of_ne haddr]
      refine h.no_entry hmapping ?_
      rw [hhold]
      exact fun heq => haddr (Holding.entry.inj (Option.some.inj heq)).symm
  refine ⟨hback.pos.ne',?_⟩
  rw [hnone]
  apply h.enter hmapping ⟨_,hhold,hfd⟩
  · exact Function.update_self _ _ _
  · intro a ha
    rw [hhold,Function.update_of_ne ha,Function.update_apply]
    simp [eq_comm]

/-- The pages a block keeps when it shrinks, and those it gives up. -/
lemma pages_of_shrink (b : ShmBlock) (hle : new.size ≤ b.layout.size) (q : ℕ) :
    b.pages.has q = true ↔ (ShmBlock.pages ⟨b.addr,new⟩).has q = true ∨
      Range.has ⟨b.addr/4096+new.pageSize/4096,b.layout.pageSize/4096-new.pageSize/4096⟩ q = true := by
  have hpages : new.pageSize ≤ b.layout.pageSize := by
    unfold Layout.pageSize Align.up
    omega
  simp only [Range.has_iff,ShmBlock.pages]
  omega

lemma Shm.Inv.shrunk (h : s.Inv) (hph : s.slots i = .shrink b new) :
    Shm.Inv { s.set i (.idle ⟨b.addr,new⟩) with
      space := s.space.drop ⟨b.addr/4096+new.pageSize/4096,
        b.layout.pageSize/4096-new.pageSize/4096⟩ } := by
  have hmapping : (s.slots i).mapping = some b := by rw [hph]; rfl
  have hasks := (h.good i).asks
  rw [hph] at hasks
  have hsplit := pages_of_shrink b hasks.2
  apply h.respace _ (by rw [hph]; rfl)
  · intro j hj q hown
    apply drop_of_not_has
    by_contra hin
    exact h.pages.not_owns ⟨b,hmapping,(hsplit q).mpr (.inr (Bool.not_eq_false _ ▸ hin))⟩ hj hown
  · intro c hc j hj
    cases hc
    exact h.addrs.not_owns (.inr ⟨b,hmapping,rfl⟩) hj
  · intro c hc q hq j hj
    cases hc
    exact h.pages.not_owns ⟨b,hmapping,(hsplit q).mpr (.inl hq)⟩ hj
  · trivial
  · intro k fd m _ _ _ hold c hc
    cases hc
    have hback := hold b hmapping
    refine ⟨hback.paged,hback.pos,hasks.1,fun q hq => ?_⟩
    rw [← hback.pages q ((hsplit q).mpr (.inl hq))]
    apply drop_of_not_has
    simp only [Range.has_iff,ShmBlock.pages] at hq
    simp only [Range.has,Bool.and_eq_false_iff,decide_eq_false_iff_not]
    omega

lemma userHalf_eq_some {reply : Option ℕ} (h : userHalf reply = some p) :
    reply = some p ∧ p*4096 < 2^63 := by
  simpa [userHalf,Option.filter_eq_some_iff] using h

/-- Every operation keeps the invariant when the kernel gives out no address still to be updated. -/
lemma Shm.Inv.resume (h : s.Inv) {reply : Option ℕ} (hc : ReusesSettled s (.resume i reply))
    (ht : s.resume dax i reply = some t) : t.Inv := by
  have hasks := (h.good i).asks
  unfold Shm.resume at ht
  cases hph : s.slots i with
  | vacant | idle | panicked =>
    rw [hph] at ht
    cases ht
  | memfdCreate layout =>
    rw [hph] at ht
    have hfail : (s.set i .vacant).Inv := h.quiet (by rw [hph]; rfl) nofun trivial
    cases reply with
    | none =>
      cases ht
      exact hfail
    | some fd =>
      by_cases hfd : s.files fd = none
      · obtain rfl := Option.some.inj ((if_pos hfd).symm.trans ht)
        exact h.created hph hfd
      · obtain rfl := Option.some.inj ((if_neg hfd).symm.trans ht)
        exact hfail
  | truncateNew layout fd =>
    rw [hph] at ht hasks
    cases reply with
    | none =>
      cases ht
      exact h.quiet (by rw [hph]; rfl) nofun trivial
    | some _ =>
      cases ht
      exact h.quiet (by rw [hph]; rfl) nofun hasks
  | mmap layout fd =>
    have hfail : (s.set i (.close fd)).Inv := h.quiet (by rw [hph]; rfl) nofun trivial
    rw [hph] at ht
    dsimp only at ht
    split at ht
    · cases ht
      exact hfail
    · next m hm =>
      split at ht
      · cases ht
        exact hfail
      · next p space hmap =>
        obtain ⟨hreply,hp,hfree,rfl⟩ := mmap_eq_some hmap
        obtain ⟨-,hreply⟩ := Option.ite_none_right_eq_some.mp hreply
        obtain ⟨rfl,-⟩ := userHalf_eq_some hreply
        cases ht
        exact h.mapped hph hm hp hfree (hc (by rw [hph]; rfl))
  | close fd =>
    rw [hph] at ht
    cases ht
    exact h.closed hph
  | insert layout fd addr =>
    obtain ⟨hpos,hinv⟩ := h.inserted hph
    rw [hph] at ht
    obtain rfl := Option.some.inj ((if_neg hpos).symm.trans ht)
    exact hinv
  | munmap b =>
    rw [hph] at ht
    cases reply with
    | none =>
      cases ht
      exact h.quiet (by rw [hph]; rfl) nofun trivial
    | some _ =>
      cases ht
      exact h.unmapped hph
  | remove b =>
    rw [hph] at ht
    cases ht
    exact h.removed hph
  | lookup b new =>
    obtain ⟨fd,m,hfd,-,-⟩ := (h.good i).backed (.entry b.addr) (by rw [hph]; rfl)
    rw [hph] at ht hasks
    dsimp only at ht
    rw [show s.fdForAlloc b.addr = some fd from hfd] at ht
    cases ht
    exact h.quiet (by rw [hph]; rfl) (fun _ hb => by rw [hph]; exact hb) hasks
  | truncate b new fd =>
    rw [hph] at ht hasks
    cases reply with
    | none =>
      cases ht
      exact h.quiet (by rw [hph]; rfl) (fun _ hb => by rw [hph]; exact hb) trivial
    | some _ =>
      cases ht
      exact h.quiet (by rw [hph]; rfl) (fun _ hb => by rw [hph]; exact hb) hasks
  | mremap b new =>
    have hfail : (s.set i (.idle b)).Inv :=
      h.quiet (by rw [hph]; rfl) (fun _ hb => by rw [hph]; exact hb) trivial
    rw [hph] at ht
    dsimp only at ht
    split at ht
    · cases ht
      exact hfail
    · next m hm =>
      split at ht
      · cases ht
        exact hfail
      · next p space hmap =>
        obtain ⟨hreply,hp,hfree,rfl⟩ := mremap_eq_some hmap
        obtain ⟨rfl,hhalf⟩ := userHalf_eq_some hreply
        rw [if_neg (Nat.not_le.mpr hhalf)] at ht
        cases ht
        exact h.remapped hph hm hp hfree (hc (by rw [hph]; rfl))
  | update b new addr =>
    obtain ⟨fd,m,hfd,-,-⟩ := (h.good i).backed (.entry b.addr) (by rw [hph]; rfl)
    obtain ⟨hpos,hinv⟩ := h.updated hph hfd
    rw [hph] at ht
    dsimp only at ht
    rw [show s.shmFd b.addr = some fd from hfd] at ht
    obtain rfl := Option.some.inj ((if_neg hpos).symm.trans ht)
    exact hinv
  | shrink b new =>
    rw [hph] at ht
    cases reply with
    | none =>
      cases ht
      exact h.quiet (by rw [hph]; rfl) (fun _ hb => by rw [hph]; exact hb) trivial
    | some _ =>
      cases ht
      exact h.shrunk hph

/-- A call starts without touching anything. -/
lemma Shm.Inv.call (h : s.Inv) (hph : s.slots i = .idle b) :
    b.layout.size ≠ 0 ∧ (s.set i (startDeallocate b)).Inv := by
  obtain ⟨fd,m,-,-,hback⟩ := (h.good i).backed (.entry b.addr) (by rw [hph]; rfl)
  have hsize := (hback b (by rw [hph]; rfl)).size
  refine ⟨hsize,?_⟩
  rw [startDeallocate,if_neg hsize]
  exact h.quiet (by rw [hph]; rfl) (fun _ hb => by rw [hph]; exact hb) trivial

lemma shmInv_step {e : ShmEvent ι} (h : s.Inv) (hc : ReusesSettled s e)
    (ht : shmStep dax s e = some t) : t.Inv := by
  cases e with
  | allocate i layout =>
    simp only [shmStep] at ht
    split at ht
    · next hph =>
      cases ht
      unfold startAllocate
      split
      · exact h.quiet (by rw [hph]) nofun trivial
      · next hsize =>
        split
        · exact h.quiet (by rw [hph]) nofun trivial
        · exact h.quiet (by rw [hph]; rfl) nofun hsize
    · cases ht
  | deallocate i =>
    simp only [shmStep] at ht
    split at ht
    · next b hph =>
      cases ht
      exact (h.call hph).2
    · cases ht
  | grow i new =>
    simp only [shmStep] at ht
    split at ht
    · next b hph =>
      obtain ⟨hle,ht⟩ := Option.ite_none_right_eq_some.mp ht
      cases ht
      have hsize := (h.call hph).1
      unfold startGrow
      rw [if_neg hsize]
      split
      · exact h.quiet (by rw [hph]) (fun _ hb => by rw [hph]; exact hb) trivial
      · exact h.quiet (by rw [hph]; rfl) (fun _ hb => by rw [hph]; exact hb)
          (show new.size ≠ 0 by omega)
    · cases ht
  | shrink i new =>
    simp only [shmStep] at ht
    split at ht
    · next b hph =>
      obtain ⟨hle,ht⟩ := Option.ite_none_right_eq_some.mp ht
      cases ht
      unfold startShrink
      split
      · exact (h.call hph).2
      · next hsize =>
        exact h.quiet (by rw [hph]; rfl) (fun _ hb => by rw [hph]; exact hb) ⟨hsize,hle⟩
    · cases ht
  | resume i reply => exact h.resume hc ht

end Operations

/-- Every run in which the kernel gives out no address still to be updated in the map keeps the right
descriptor for every block, and no call panics. -/
lemma descriptorsRight_of_reusesSettled {ι : Type*} [DecidableEq ι] {dax : Bool}
    {es : List (ShmEvent ι)} (h : Guarded (shmStep dax) ReusesSettled .initial es) :
    Always (shmStep dax) DescriptorsRight .initial es :=
  always_of_guarded (fun _ _ _ hs hc ht => shmInv_step hs hc ht)
    (fun _ hs => hs.descriptorsRight) shmInitial_inv h

section Refused

variable {ι : Type*} {s t : Shm ι}

/-- The slot has no mapping yet, or has given up on one. -/
def ShmPhase.Unmapped : ShmPhase → Prop
  | .vacant | .memfdCreate _ | .truncateNew _ _ | .mmap _ _ | .close _ => True
  | _ => False

/-- No call has come past its `mmap`. -/
structure Refused (s : Shm ι) : Prop where
  unmapped : ∀ i, (s.slots i).Unmapped
  shmFd : ∀ a, s.shmFd a = none

lemma Refused.noneLive (h : Refused s) : NoneLive s := by
  refine ⟨fun i b hi => ?_,h.shmFd⟩
  have hphase := h.unmapped i
  rw [hi] at hphase
  exact hphase

lemma Refused.descriptorsRight (h : Refused s) : DescriptorsRight s := by
  refine ⟨fun i b hi => absurd hi (h.noneLive.idle i b),fun i hi => ?_⟩
  have hphase := h.unmapped i
  rw [hi] at hphase
  exact hphase

variable [DecidableEq ι]

lemma Refused.set (h : Refused s) (i : ι) (ph : ShmPhase) (hph : ph.Unmapped)
    (hslots : t.slots = Function.update s.slots i ph) (hshmFd : t.shmFd = s.shmFd) :
    Refused t := by
  refine ⟨fun j => ?_,fun a => (congrFun hshmFd a).trans (h.shmFd a)⟩
  rw [hslots]
  by_cases hj : j = i
  · rw [hj,Function.update_self]
    exact hph
  · rw [Function.update_of_ne hj]
    exact h.unmapped j

lemma Refused.resume (h : Refused s) {i : ι} {reply : Option ℕ}
    (ht : s.resume false i reply = some t) : Refused t := by
  have hphase := h.unmapped i
  unfold Shm.resume at ht
  cases hph : s.slots i with
  | vacant =>
    rw [hph] at ht
    cases ht
  | memfdCreate layout =>
    rw [hph] at ht
    cases reply with
    | none =>
      cases ht
      exact h.set i .vacant trivial rfl rfl
    | some fd =>
      by_cases hfd : s.files fd = none
      · obtain rfl := Option.some.inj ((if_pos hfd).symm.trans ht)
        exact h.set i (.truncateNew layout fd) trivial rfl rfl
      · obtain rfl := Option.some.inj ((if_neg hfd).symm.trans ht)
        exact h.set i .vacant trivial rfl rfl
  | truncateNew layout fd =>
    rw [hph] at ht
    cases reply with
    | none =>
      cases ht
      exact h.set i (.close fd) trivial rfl rfl
    | some _ =>
      cases ht
      exact h.set i (.mmap layout fd) trivial rfl rfl
  | mmap layout fd =>
    have hclose : Refused (s.set i (.close fd)) := h.set i (.close fd) trivial rfl rfl
    rw [hph] at ht
    dsimp only at ht
    split at ht
    · cases ht
      exact hclose
    · cases ht
      exact hclose
  | close fd =>
    rw [hph] at ht
    cases ht
    exact h.set i .vacant trivial rfl rfl
  | insert | idle | munmap | remove | lookup | truncate | mremap | update | shrink | panicked =>
    rw [hph] at hphase
    exact hphase.elim

lemma refused_step {e : ShmEvent ι} (h : Refused s) (ht : shmStep false s e = some t) :
    Refused t := by
  cases e with
  | allocate i layout =>
    simp only [shmStep] at ht
    split at ht
    · cases ht
      refine h.set i (startAllocate layout) ?_ rfl rfl
      unfold startAllocate
      split
      · trivial
      · split <;> trivial
    · cases ht
  | deallocate i | grow i | shrink i =>
    simp only [shmStep] at ht
    split at ht
    · next b hph => exact absurd hph (h.noneLive.idle i b)
    · cases ht
  | resume i reply => exact h.resume ht

end Refused

/-- A block moves while another one is being allocated; the second one is then released. -/
def growBesideAllocate : List (ShmEvent Bool) :=
  [.allocate false smallLayout,.resume false (some 3),.resume false (some 0),
    .resume false (some 1),.allocate true smallLayout,.resume true (some 4),.resume false none,
    .resume true (some 0),.grow false largeLayout,.resume false none,.resume false (some 0),
    .resume true (some 2),.resume false (some 5),.resume true none,.resume false none,
    .deallocate true,.resume true (some 0),.resume true none]

/-- The address of a block is reused between its `munmap` and the removal of its entry. -/
def reuseBeforeRemove : List (ShmEvent Bool) :=
  [.allocate false smallLayout,.resume false (some 3),.resume false (some 0),
    .resume false (some 1),.resume false none,.deallocate false,.resume false (some 0),
    .allocate true smallLayout,.resume true (some 4),.resume true (some 0),.resume true (some 1),
    .resume true none,.resume false none]

-- the removal takes the entry of the second block, which then has no descriptor; growing it panics
example : (run (shmStep true) .initial reuseBeforeRemove).map (fun s => (s.slots true,
    s.fdForAlloc 4096,(run (shmStep true) s [.grow true largeLayout,.resume true none]).map
      fun t => t.slots true)) = some (.idle ⟨4096,smallLayout⟩,none,some .panicked) := by
  decide +kernel

end WinterLily.Alloc
