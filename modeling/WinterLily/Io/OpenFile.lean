import WinterLily.Process.Create

/-! `OpenFile` of `wl-usi-io/src/fs.rs`: the directory that a path is resolved from, the flags of
`openat`, and the handle for the descriptor it returns. The pointers `ohdl`, `path` and `opts` are
not checked by the source; the path and the options are taken as what is read through them. -/
namespace WinterLily.Io
open WinterLily.Memory WinterLily.Handles WinterLily.Process WinterLily.Transition

/-- The constants of `lilium_sys` that `OpenFile` uses. A free slot of the table has no type. -/
structure Constants where
  ioFile : Word
  ioFile_ne : ioFile ≠ 0#64
  opNoAccess : BitVec 32
  opAclAccess : BitVec 32
  opDirectoryAccess : BitVec 32
  accessRead : BitVec 32
  accessWrite : BitVec 32
  accessCreate : BitVec 32
  accessCreateExclusive : BitVec 32
  accessLinkStreamDirect : BitVec 32
  accessTruncate : BitVec 32
  accessStartEnd : BitVec 32

structure FileOpenOptions where
  accessMode : BitVec 32
  opMode : BitVec 32
  deriving DecidableEq, Repr

abbrev OFlags := BitVec 32

namespace OFlags

def rdonly : OFlags := 0x0#32
def wronly : OFlags := 0x1#32
def rdwr : OFlags := 0x2#32
def create : OFlags := 0x40#32
def excl : OFlags := 0x80#32
def trunc : OFlags := 0x200#32
def append : OFlags := 0x400#32
def directory : OFlags := 0x10000#32
def nofollow : OFlags := 0x20000#32
def cloexec : OFlags := 0x80000#32
def path : OFlags := 0x200000#32

end OFlags

/-- A flag of `openat` for a bit of the access mode. -/
def FileOpenOptions.flag (opts : FileOpenOptions) (access : BitVec 32) (f : OFlags) : OFlags :=
  if opts.accessMode &&& access ≠ 0#32 then f else 0#32

/-- The flags for reading and writing. -/
def accessFlags (C : Constants) (opts : FileOpenOptions) : OFlags :=
  let both := C.accessRead ||| C.accessWrite
  if opts.opMode = C.opNoAccess ∨ opts.opMode = C.opAclAccess then OFlags.path
  else if opts.accessMode &&& both = both then OFlags.rdwr
  else if opts.accessMode &&& C.accessRead ≠ 0#32 then OFlags.rdonly
  else opts.flag C.accessWrite OFlags.wronly

def oflags (C : Constants) (opts : FileOpenOptions) : OFlags :=
  OFlags.cloexec ||| accessFlags C opts ||| opts.flag C.accessCreate OFlags.create |||
    opts.flag C.accessCreateExclusive OFlags.excl |||
    opts.flag C.accessLinkStreamDirect OFlags.nofollow |||
    opts.flag C.accessTruncate OFlags.trunc ||| opts.flag C.accessStartEnd OFlags.append |||
    (if opts.opMode = C.opDirectoryAccess then OFlags.directory else 0#32)

/-- What a path is resolved from. -/
inductive Dirfd
  | cwd
  | fd (fd : Fd)
  deriving DecidableEq, Repr

/-- `openat`, given the descriptors that are open: a new one is none of them. -/
structure Kernel where
  openat : (Fd → Bool) → Dirfd → List Byte → OFlags → BitVec 32 → Except Errno Fd
  fresh : ∀ {fds d path flags mode fd}, openat fds d path flags mode = .ok fd → fds fd = false

/-- The calling thread's handle table, the descriptors of its process and its memory. -/
structure Proc where
  table : Table
  fds : Fd → Bool
  mem : Mem 64

structure OpenArgs where
  ohdl : Word
  resolutionBase : Word
  path : List Byte
  opts : FileOpenOptions

/-- The descriptor that the path is resolved from. -/
def dirfd (C : Constants) (base : Word) (t : Table) (resolutionBase : Word) :
    Except LiliumError Dirfd := do
  if resolutionBase = 0#64 then return .cwd
  let i ← tryDeref base resolutionBase t
  (t.slots i).checkType C.ioFile 0#64
  match (t.slots i).borrowFd with
  | some fd => return .fd fd
  | none => throw .unsupportedOperation

/-- `CString::new`, which refuses a NUL in the text. -/
def cstring (path : List Byte) : Except LiliumError (List Byte) :=
  if 0#8 ∈ path then .error (.code (-0x801)) else .ok path

def fileHandle (C : Constants) (fd : Fd) : Handle := ⟨C.ioFile,0#64,0#64,fd.signExtend 64⟩

/-- The mode of a file that is created. -/
def openMode : BitVec 32 := 0o666#32

def openFile (C : Constants) (K : Kernel) (base : Word) (a : OpenArgs) (s : Proc) :
    Except LiliumError Unit × Proc :=
  match dirfd C base s.table a.resolutionBase with
  | .error e => (.error e,s)
  | .ok d =>
    match cstring a.path with
    | .error e => (.error e,s)
    | .ok path =>
      match K.openat s.fds d path (oflags C a.opts) openMode with
      | .error e => (.error (linuxErrorToLilium e),s)
      | .ok fd =>
        -- the descriptor has no owner from here on
        let s := { s with fds := Function.update s.fds fd true }
        match insertHandle base (fileHandle C fd) s.table with
        | (.error e,t) => (.error e,{ s with table := t })
        | (.ok ptr,t) => (.ok (),{ s with table := t, mem := s.mem.setWord a.ohdl ptr })

/-- The directory is the current one or that of a live handle to a file with a descriptor. -/
def Names (C : Constants) (base : Word) (t : Table) (resolutionBase : Word) (d : Dirfd) : Prop :=
  resolutionBase = 0#64 ∧ d = .cwd ∨
    resolutionBase ≠ 0#64 ∧ ∃ i, resolutionBase = slotAddr base i ∧ (t.slots i).ty = C.ioFile ∧
      ¬ (t.slots i).fd.slt 0#64 = true ∧ d = .fd ((t.slots i).fd.setWidth 32)

/-- The file is opened and there is no slot for its handle. -/
structure Stranded (C : Constants) (K : Kernel) (base : Word) (a : OpenArgs) (s : Proc) (fd : Fd) :
    Prop where
  full : ∀ i, (s.table.slots i).ty ≠ 0#64
  plain : 0#8 ∉ a.path
  opened : ∃ d, Names C base s.table a.resolutionBase d ∧
    K.openat s.fds d a.path (oflags C a.opts) openMode = .ok fd

section Cases

variable {C : Constants} {K : Kernel} {base : Word} {a : OpenArgs} {s : Proc}

lemma bind_eq_ok_iff {α β ε : Type} {x : Except ε α} {f : α → Except ε β} {b : β} :
    (x >>= f) = .ok b ↔ ∃ a, x = .ok a ∧ f a = .ok b := by
  cases x with
  | error e => exact iff_of_false (by rintro ⟨⟩) (by rintro ⟨_,⟨⟩,_⟩)
  | ok a =>
    refine ⟨fun h => ⟨a,rfl,h⟩,?_⟩
    rintro ⟨_,⟨⟩,h⟩
    exact h

lemma checkType_ok_iff {h : Handle} {ty : Word} {u : Unit} :
    h.checkType ty 0#64 = .ok u ↔ h.ty = ty := by
  have hmask : h.ty &&& ~~~0#64 = h.ty := by
    rw [BitVec.not_zero,BitVec.and_allOnes]
  unfold Handle.checkType
  rw [hmask]
  split_ifs with hty <;> simp [hty]

lemma dirfd_ok_iff (hb : Placed base) {t : Table} {p : Word} {d : Dirfd} :
    dirfd C base t p = .ok d ↔ Names C base t p d := by
  unfold dirfd Names
  by_cases hnull : p = 0#64
  · simp only [hnull,if_true,true_and,ne_eq,not_true,false_and,or_false]
    exact ⟨fun h => (Except.ok.inj h).symm,fun h => congrArg _ h.symm⟩
  · simp only [hnull,if_false,false_and,false_or,ne_eq,not_false_iff,true_and]
    constructor
    · intro h
      obtain ⟨i,hi,h⟩ := bind_eq_ok_iff.mp h
      obtain ⟨u,hty,h⟩ := bind_eq_ok_iff.mp h
      refine ⟨i,((tryDeref_ok_iff hb p t i).mp hi).1,checkType_ok_iff.mp hty,?_⟩
      by_cases hneg : (t.slots i).fd.slt 0#64 = true
      · rw [Handle.borrowFd,if_pos hneg] at h
        cases h
      · rw [Handle.borrowFd,if_neg hneg] at h
        cases h
        exact ⟨hneg,rfl⟩
    · rintro ⟨i,hp,hty,hfd,rfl⟩
      have hi := (tryDeref_ok_iff hb p t i).mpr ⟨hp,by rw [hty]; exact C.ioFile_ne⟩
      refine bind_eq_ok_iff.mpr ⟨i,hi,bind_eq_ok_iff.mpr ⟨(),checkType_ok_iff.mpr hty,?_⟩⟩
      rw [Handle.borrowFd,if_neg hfd]
      rfl

/-- What a call does: nothing, a file with its handle, or a file without one. -/
lemma openFile_cases (hb : Placed base) :
    (∃ e, openFile C K base a s = (.error e,s)) ∨
      (∃ fd i, s.fds fd = false ∧ (s.table.slots i).ty = 0#64 ∧ openFile C K base a s =
        (.ok (),⟨⟨Function.update s.table.slots i (fileHandle C fd),i,s.table.liveHandles+1#64⟩,
          Function.update s.fds fd true,s.mem.setWord a.ohdl (slotAddr base i)⟩)) ∨
      ∃ fd, Stranded C K base a s fd ∧ openFile C K base a s =
        (.error .resourceLimitExhausted,{ s with fds := Function.update s.fds fd true }) := by
  unfold openFile
  cases hd : dirfd C base s.table a.resolutionBase with
  | error e => exact .inl ⟨e,rfl⟩
  | ok d =>
    by_cases hnul : 0#8 ∈ a.path
    · exact .inl ⟨.code (-0x801),by simp [cstring,hnul]⟩
    · simp only [cstring,hnul,if_false]
      cases hopen : K.openat s.fds d a.path (oflags C a.opts) openMode with
      | error e => exact .inl ⟨_,rfl⟩
      | ok fd =>
        obtain ⟨hfull,hins⟩ | ⟨i,hfree,hins⟩ := insertHandle_cases base (fileHandle C fd) s.table
        · refine .inr (.inr ⟨fd,⟨hfull,hnul,d,(dirfd_ok_iff hb).mp hd,hopen⟩,?_⟩)
          simp only [hins]
        · refine .inr (.inl ⟨fd,i,K.fresh hopen,hfree,?_⟩)
          simp only [hins]

/-- A file without a handle leaves its descriptor open. -/
lemma openFile_stranded (hb : Placed base) {fd : Fd} (h : Stranded C K base a s fd) :
    openFile C K base a s =
      (.error .resourceLimitExhausted,{ s with fds := Function.update s.fds fd true }) := by
  obtain ⟨hfull,hplain,d,hd,hopen⟩ := h
  obtain ⟨-,hins⟩ | ⟨i,hfree,-⟩ := insertHandle_cases base (fileHandle C fd) s.table
  · simp only [openFile,(dirfd_ok_iff hb).mpr hd,cstring,hplain,if_false,hopen,hins]
  · exact absurd hfree (hfull i)

end Cases

/-- A call that fails has left the handles and the descriptors as they were. -/
def FailsClean (C : Constants) (K : Kernel) (base : Word) (a : OpenArgs) (s : Proc) : Prop :=
  ∀ e t, openFile C K base a s = (.error e,t) → t.table = s.table ∧ t.fds = s.fds

/-- A failing `OpenFile` has no effect exactly when it does not open a file with the table full. -/
theorem open_file_fails_clean_iff (C : Constants) (K : Kernel) (base : Word) (hb : Placed base)
    (a : OpenArgs) (s : Proc) :
    FailsClean C K base a s ↔ ¬ ∃ fd, Stranded C K base a s fd := by
  constructor
  · rintro hclean ⟨fd,h⟩
    obtain ⟨-,hfds⟩ := hclean _ _ (openFile_stranded hb h)
    have hfd := congrFun hfds fd
    obtain ⟨-,-,d,-,hopen⟩ := h
    rw [K.fresh hopen] at hfd
    simp at hfd
  · intro hnone e t hrun
    obtain ⟨e',h⟩ | ⟨fd,i,-,-,h⟩ | ⟨fd,hstr,-⟩ := openFile_cases (C := C) (K := K) (a := a)
      (s := s) hb
    · rw [h] at hrun
      cases hrun
      exact ⟨rfl,rfl⟩
    · rw [h] at hrun
      cases hrun
    · exact absurd ⟨fd,hstr⟩ hnone

section Runs

variable {C : Constants} {K : Kernel} {base : Word}

/-- One call after another. -/
def openStep (C : Constants) (K : Kernel) (base : Word) (s : Proc) (a : OpenArgs) : Option Proc :=
  some (openFile C K base a s).2

/-- Every descriptor is one of `fds` or has a handle. -/
def Owned (C : Constants) (fds : Fd → Bool) (s : Proc) : Prop :=
  ∀ fd, s.fds fd = true → fds fd = true ∨ ∃ i, s.table.slots i = fileHandle C fd

lemma owned_step (hb : Placed base) {fds : Fd → Bool} {s t : Proc} {a : OpenArgs}
    (h : Owned C fds s) (hnone : ¬ ∃ fd, Stranded C K base a s fd)
    (ht : openStep C K base s a = some t) : Owned C fds t := by
  obtain rfl := Option.some.inj ht
  obtain ⟨e,hrun⟩ | ⟨fd,i,-,hfree,hrun⟩ | ⟨fd,hstr,-⟩ := openFile_cases (C := C) (K := K) (a := a)
    (s := s) hb
  · rw [hrun]
    exact h
  · rw [hrun]
    intro fd' hfd'
    change Function.update s.fds fd true fd' = true at hfd'
    by_cases heq : fd' = fd
    · rw [heq]
      exact .inr ⟨i,Function.update_self _ _ _⟩
    · rw [Function.update_of_ne heq] at hfd'
      obtain hold | ⟨j,hj⟩ := h fd' hfd'
      · exact .inl hold
      · -- the slot that was taken had no handle
        have hne : j ≠ i := by
          rintro rfl
          rw [hj] at hfree
          exact C.ioFile_ne hfree
        refine .inr ⟨j,?_⟩
        change Function.update s.table.slots i _ j = _
        rw [Function.update_of_ne hne,hj]
  · exact absurd ⟨fd,hstr⟩ hnone

/-- As long as no call opens a file with the table full, each new descriptor has a handle. -/
theorem descriptors_owned (hb : Placed base) (s : Proc) (calls : List OpenArgs)
    (h : Guarded (openStep C K base) (fun s a => ¬ ∃ fd, Stranded C K base a s fd) s calls) :
    Always (openStep C K base) (Owned C s.fds) s calls :=
  always_of_guarded (I := Owned C s.fds) (fun _ _ _ hI hC ht => owned_step hb hI hC ht)
    (fun _ hI => hI) (fun _ hfd => .inl hfd) h

end Runs

section Sample

def sampleConstants : Constants where
  ioFile := 0x10001#64
  ioFile_ne := by decide
  opNoAccess := 0#32
  opAclAccess := 1#32
  opDirectoryAccess := 3#32
  accessRead := 1#32
  accessWrite := 2#32
  accessCreate := 8#32
  accessCreateExclusive := 16#32
  accessLinkStreamDirect := 32#32
  accessTruncate := 64#32
  accessStartEnd := 128#32

lemma emfile_pos : 0 < 24 := by decide

lemma emfile_lt : 24 < 4096 := by decide

/-- It has one descriptor to give. -/
def openThree (fds : Fd → Bool) : Except Errno Fd :=
  if fds 3#32 = true then .error ⟨24,emfile_pos,emfile_lt⟩ else .ok 3#32

lemma openThree_fresh {fds : Fd → Bool} {fd : Fd} (h : openThree fds = .ok fd) : fds fd = false := by
  unfold openThree at h
  split_ifs at h with hfd
  cases h
  exact Bool.eq_false_iff.mpr hfd

def sampleKernel : Kernel := ⟨fun fds _ _ _ _ => openThree fds,openThree_fresh⟩

/-- The file `a` of the current directory, for reading. -/
def sampleArgs : OpenArgs := ⟨0x9000#64,0#64,[0x61#8],⟨1#32,2#32⟩⟩

def sampleProc (t : Table) : Proc := ⟨t,fun _ => false,fun _ => 0#8⟩

/-- A process that has the one descriptor already. -/
def busyProc : Proc := { sampleProc .initial with fds := Function.update (fun _ => false) 3#32 true }

/-- The kernel has no descriptor left: the call fails and changes nothing. -/
theorem open_file_fails_clean_iff_busy :
    Placed 0x10000#64 ∧
      (∃ e, openFile sampleConstants sampleKernel 0x10000#64 sampleArgs busyProc =
        (.error e,busyProc)) ∧
      FailsClean sampleConstants sampleKernel 0x10000#64 sampleArgs busyProc := by
  have hb : Placed 0x10000#64 := ⟨by decide,by decide⟩
  refine ⟨hb,⟨_,rfl⟩,(open_file_fails_clean_iff _ _ _ hb _ _).mpr ?_⟩
  rintro ⟨fd,h⟩
  exact h.full (masked 0) rfl

/-- With 512 handles in use the file is opened, the call fails and the descriptor stays. -/
theorem full_table_strands_descriptor :
    openFile sampleConstants sampleKernel 0x10000#64 sampleArgs
        (sampleProc ⟨fun _ => plainHandle,0,512#64⟩) =
      (.error .resourceLimitExhausted,{ sampleProc ⟨fun _ => plainHandle,0,512#64⟩ with
        fds := Function.update (fun _ => false) 3#32 true }) ∧
      ¬ FailsClean sampleConstants sampleKernel 0x10000#64 sampleArgs
        (sampleProc ⟨fun _ => plainHandle,0,512#64⟩) := by
  have hb : Placed 0x10000#64 := ⟨by decide,by decide⟩
  have hty : plainHandle.ty ≠ 0#64 := by decide
  have hrun := openFile_stranded (C := sampleConstants) (K := sampleKernel) (a := sampleArgs)
    (s := sampleProc ⟨fun _ => plainHandle,0,512#64⟩) hb
    ⟨fun _ => hty,by decide,.cwd,.inl ⟨rfl,rfl⟩,rfl⟩
  refine ⟨hrun,fun hclean => ?_⟩
  exact absurd (congrFun (hclean _ _ hrun).2 3#32) (by decide)

end Sample

end WinterLily.Io
