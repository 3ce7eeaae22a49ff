import WinterLily.Handles.Table

/-! `CreateProcess` of `wl-usi-process/src/proc.rs`, from its arguments on, and the child it forks.
Parent and child share a socket: the child sends the descriptor of itself, then its error number if
`execve` fails; success shows as the end of the stream. What each system call returns is fixed by
`Outcomes`; the order in which parent and child take their steps is not. -/
namespace WinterLily.Process
open WinterLily.Handles WinterLily.Transition

/-- `linux_errno::Error`. -/
structure Errno where
  val : ℕ
  pos : 0 < val
  lt : val < 4096
  deriving DecidableEq

/-- `linux_errno::Error::new`. -/
def Errno.new (n : ℕ) : Option Errno :=
  if h : 0 < n ∧ n < 4096 then some ⟨n,h.1,h.2⟩ else none

lemma Errno.new_val (e : Errno) : Errno.new e.val = some e := dif_pos ⟨e.pos,e.lt⟩

/-- `linux_error_to_lilium`. -/
def linuxErrorToLilium (e : Errno) : LiliumError :=
  match e.val with
  | 4 => .interrupted
  | 1 => .permission
  | 12 => .insufficientMemory
  | 22 => .invalidOperation
  | 14 => .invalidMemory
  | 38 => .unsupportedKernelFunction
  | 2 => .doesNotExist
  | 19 => .doesNotExist
  | 24 | 23 | 122 => .resourceLimitExhausted
  | 9 => .invalidHandle
  | _ => .code (-0x800)

abbrev Fd := BitVec 32

/-- What a descriptor of the parent refers to. -/
inductive File
  | foreign (n : ℕ)
  | readEnd
  | writeEnd
  | pidfd
  deriving DecidableEq, Repr

/-- A message on the socket: the descriptor of the child, or an error number. -/
inductive Msg
  | rights
  | errno (n : ℕ)
  deriving DecidableEq, Repr

/-- What the system calls return; `none` is success. `valid` is the outcome of the checks of the
arguments, and `reports` says whether the child's write of its error number goes through. -/
structure Outcomes where
  valid : Option LiliumError
  fork : Except Errno (BitVec 32)
  pidfdOpen : Option Errno
  sendmsg : Option Errno
  execve : Option Errno
  reports : Bool
  recvmsg : Option Errno
  read : Option Errno
  readFd : Fd
  writeFd : Fd
  pidFd : Fd

inductive ParentPhase
  | validate
  | socketpair
  | insert
  | fork (ptr : Word)
  | recvmsg (ptr : Word) (pid : BitVec 32)
  | abortClose (ptr : Word) (e : LiliumError)
  | abortWait (e : LiliumError)
  | install (ptr : Word) (pid : BitVec 32) (fd : Fd)
  | dropWrite (ptr : Word) (fd : Fd)
  | read (ptr : Word) (fd : Fd)
  | failClose (ptr : Word) (fd : Fd) (n : ℕ)
  | failWait (fd : Fd) (n : ℕ)
  | unwind (r : Except LiliumError Word)
  | returned (r : Except LiliumError Word)

/-- `report` carries whether the write consumes the child's end of the socket. -/
inductive ChildPhase
  | absent
  | pidfdOpen
  | sendmsg
  | execve
  | report (e : Errno) (moved : Bool)
  | exiting
  | running
  | zombie
  | reaped
  deriving DecidableEq

/-- The calling thread's handle table, its descriptors, both control states, the messages in flight
and whether the child has its copy of the write end. -/
structure Creation where
  table : Table
  fds : Fd → Option File
  parent : ParentPhase
  child : ChildPhase
  queue : List Msg
  childWrite : Bool

def Creation.initial (t : Table) (f : Fd → Option File) : Creation :=
  ⟨t,f,.validate,.absent,[],false⟩

/-- `Handle::deref_unchecked`. -/
def derefUnchecked (base ptr : Word) : Fin nHandles := masked ((ptr-base).toNat/handleSize)

/-- `hdl.close(false)`. -/
def Creation.closeHandle (s : Creation) (base ptr : Word) : Creation :=
  let i := derefUnchecked base ptr
  { s with
    table := Handles.closeHandle s.table i
    fds := ((s.table.slots i).closes false).foldl (fun f fd => Function.update f fd none) s.fds }

/-- Some copy of the write end is open. -/
def Creation.writers (o : Outcomes) (s : Creation) : Bool :=
  s.fds o.writeFd = some .writeEnd || s.childWrite

/-- The handle `CreateProcess` inserts, before and after it is given the child's descriptor. -/
def emptyHandle (procTy : Word) : Handle := ⟨procTy,0#64,0#64,-1#64⟩

def filledHandle (procTy : Word) (pid : BitVec 32) (fd : Fd) : Handle :=
  ⟨procTy,0#64,pid.signExtend 64,fd.signExtend 64⟩

def parentStep (base procTy : Word) (o : Outcomes) (s : Creation) : Option Creation :=
  match s.parent with
  | .validate =>
    match o.valid with
    | some e => some { s with parent := .returned (.error e) }
    | none => some { s with parent := .socketpair }
  | .socketpair =>
    some { s with
      fds := Function.update (Function.update s.fds o.readFd (some .readEnd)) o.writeFd
        (some .writeEnd)
      parent := .insert }
  | .insert =>
    match insertHandle base (emptyHandle procTy) s.table with
    | (.error e,table) => some { s with table := table, parent := .unwind (.error e) }
    | (.ok ptr,table) => some { s with table := table, parent := .fork ptr }
  | .fork ptr =>
    match o.fork with
    | .error e => some { s with parent := .unwind (.error (linuxErrorToLilium e)) }
    | .ok pid =>
      some { s with parent := .recvmsg ptr pid, child := .pidfdOpen, childWrite := true }
  | .recvmsg ptr pid =>
    match o.recvmsg with
    | some e => some { s with parent := .abortClose ptr (linuxErrorToLilium e) }
    | none =>
      match s.queue with
      | .rights::queue =>
        some { s with
          fds := Function.update s.fds o.pidFd (some .pidfd)
          parent := .install ptr pid o.pidFd
          queue := queue }
      | .errno _::queue => some { s with parent := .abortClose ptr (.code (-0x802)), queue := queue }
      | [] =>
        if s.writers o then none
        else some { s with parent := .abortClose ptr (.code (-0x802)) }
  | .abortClose ptr e => some { s.closeHandle base ptr with parent := .abortWait e }
  | .abortWait e =>
    -- `waitid` with the process id
    match s.child with
    | .zombie => some { s with parent := .unwind (.error e), child := .reaped }
    | _ => none
  | .install ptr pid fd =>
    let i := derefUnchecked base ptr
    let h := { s.table.slots i with fd := fd.signExtend 64, blob2 := pid.signExtend 64 }
    some { s with
      table := { s.table with slots := Function.update s.table.slots i h }
      parent := .dropWrite ptr fd }
  | .dropWrite ptr fd =>
    some { s with fds := Function.update s.fds o.writeFd none, parent := .read ptr fd }
  | .read ptr fd =>
    -- the read end is consumed by the call
    let s := { s with fds := Function.update s.fds o.readFd none }
    match o.read with
    | some _ => some { s with parent := .returned (.ok ptr) }
    | none =>
      match s.queue with
      | .errno n::queue => some { s with parent := .failClose ptr fd n, queue := queue }
      | .rights::queue => some { s with parent := .returned (.ok ptr), queue := queue }
      | [] => if s.writers o then none else some { s with parent := .returned (.ok ptr) }
  | .failClose ptr fd n => some { s.closeHandle base ptr with parent := .failWait fd n }
  | .failWait fd n =>
    -- `waitid` with the descriptor, which fails at once when that is not open
    let r := Except.error ((Errno.new n).elim .resourceLimitExhausted linuxErrorToLilium)
    if s.fds fd = some .pidfd then
      match s.child with
      | .zombie => some { s with parent := .returned r, child := .reaped }
      | _ => none
    else some { s with parent := .returned r }
  | .unwind r =>
    some { s with
      fds := Function.update (Function.update s.fds o.readFd none) o.writeFd none
      parent := .returned r }
  | .returned _ => none

def childStep (o : Outcomes) (s : Creation) : Option Creation :=
  match s.child with
  | .absent | .zombie | .reaped => none
  | .pidfdOpen =>
    match o.pidfdOpen with
    | some e => some { s with child := .report e false }
    | none => some { s with child := .sendmsg }
  | .sendmsg =>
    match o.sendmsg with
    | some e => some { s with child := .report e false }
    | none => some { s with child := .execve, queue := s.queue++[.rights] }
  | .execve =>
    match o.execve with
    | some e => some { s with child := .report e true }
    | none => some { s with child := .running, childWrite := false }
  | .report e moved =>
    some { s with
      child := .exiting
      queue := if o.reports then s.queue++[.errno e.val] else s.queue
      childWrite := s.childWrite && !moved }
  | .exiting => some { s with child := .zombie, childWrite := false }
  | .running => some { s with child := .zombie }

inductive Who
  | parent
  | child
  deriving DecidableEq, Repr

def createStep (base procTy : Word) (o : Outcomes) (s : Creation) : Who → Option Creation
  | .parent => parentStep base procTy o s
  | .child => childStep o s

end WinterLily.Process
