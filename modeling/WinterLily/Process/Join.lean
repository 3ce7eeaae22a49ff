import WinterLily.Io.OpenFile
import WinterLily.Process.Stages
import WinterLily.Signals.Fate

/-! A thread of the guest between its system calls: `JoinProcess` of `proc.rs`, `IOWrite` and
`IORead` of `basic.rs`, `get_init_handles` of `handle_base.rs`, and their state together with that
of `CreateProcess` and `OpenFile`. Descriptors refer to files or to children, and children end when
they like. -/
namespace WinterLily.Process
open WinterLily.Memory WinterLily.Handles WinterLily.Transition

abbrev Uuid := BitVec 128

def excAbort : Uuid := 0x466fbae6be8b5525bd04ee7153b74f55#128
def excBus : Uuid := 0xef1d81bc58d95779a4c7540b9163cdf1#128
def excSegv : Uuid := 0xfcf8d45189e650b5b2e6396aec58a74a#128
def excIll : Uuid := 0x9dc46cba85a45b94be2403717a40c72b#128
def excFpe : Uuid := 0x5c91c672f9715b6ba806d6a6d2c8eb8a#128
def excKill : Uuid := 0xf25200977a8454f6baf6380242841fe9#128
def excInt : Uuid := 0x255f142a31da53d68667a69cd7c2ab12#128
def excTrap : Uuid := 0xdf1ddb6249c5560f86ab1910471570b1#128
def excOther : Uuid := 0x79a90b8e8f4b51348aa2ff68877017db#128

/-- `sig_to_except`. -/
def sigToExcept (signo : ℕ) : Option Uuid :=
  match signo with
  | 6 => some excAbort
  | 7 => some excBus
  | 11 => some excSegv
  | 4 => some excIll
  | 8 => some excFpe
  | 9 => some excKill
  | 2 => some excInt
  | 5 => some excTrap
  | 3 => none
  | _ => some excOther

/-- How a child ended. -/
inductive Exit
  | exited (status : ℕ)
  | signaled (sig : ℕ)
  deriving DecidableEq, Repr

/-- `JoinStatus`, by the member written; a discriminant of `!0` is -1. -/
inductive JoinStatus
  | exitException (exceptCode : Uuid) (exceptInfo exceptReason : ℕ)
  | exitCode (discriminant : ℤ) (code : ℕ)
  deriving DecidableEq, Repr

/-- The status that `JoinProcess` makes of the kernel's. -/
def joinStatus : Exit → JoinStatus
  | .signaled sig =>
    match sigToExcept sig with
    | some except => .exitException except 0 0
    | none => .exitCode (-1) 0
  | .exited status => .exitCode 0 status

/-- The types of handles that the calls check for. -/
structure HandleTypes (C : Io.Constants) where
  io : Word
  proc : Word
  io_ne : io ≠ 0#64
  proc_ne : proc ≠ 0#64
  io_ne_proc : io ≠ proc
  file_ne_proc : C.ioFile ≠ proc
  proc_not_io : proc &&& ~~~0xF0000000#64 ≠ io

/-- What a descriptor of the process refers to; children are numbered as they are forked. -/
inductive Object
  | file
  | child (k : ℕ)
  | socket
  deriving DecidableEq, Repr

inductive Life
  | running
  | zombie (e : Exit)
  | reaped
  deriving DecidableEq, Repr

structure Guest where
  table : Table
  fds : Fd → Option Object
  mem : Mem 64
  children : List Life

namespace Guest

/-- The descriptors as `CreateProcess` has them. -/
def files (s : Guest) (fd : Fd) : Option File := (s.fds fd).map fun _ => .foreign 0

/-- The descriptors that a `CreateProcess` leaves. -/
def back (s : Guest) (c : Creation) (fd : Fd) : Option Object :=
  match c.fds fd with
  | none => none
  | some (.foreign _) => s.fds fd
  | some .pidfd => some (.child s.children.length)
  | some .readEnd | some .writeEnd => some .socket

/-- The child that a `CreateProcess` leaves, if it forked one; a dead one ended with `e`. -/
def born (e : Exit) : ChildPhase → List Life
  | .absent => []
  | .zombie => [.zombie e]
  | .reaped => [.reaped]
  | .pidfdOpen | .sendmsg | .execve | .report _ _ | .exiting | .running => [.running]

/-- `CreateProcess` with its child's first steps in the order `es`. -/
def createProcess (base proc : Word) (o : Outcomes) (es : List Who) (e : Exit) (s : Guest) :
    Option (Except LiliumError Word × Guest) :=
  (run (createStep base proc o) (.initial s.table s.files) es).bind fun c =>
    match c.parent with
    | .returned r => some (r,{ s with
        table := c.table
        fds := s.back c
        children := s.children++born e c.child })
    | _ => none

/-- The new descriptor of an `OpenFile` is a file. -/
def openFile (C : Io.Constants) (K : Io.Kernel) (base : Word) (a : Io.OpenArgs) (s : Guest) :
    Except LiliumError Unit × Guest :=
  let (r,p) := Io.openFile C K base a ⟨s.table,fun fd => (s.fds fd).isSome,s.mem⟩
  (r,{ s with
    table := p.table
    mem := p.mem
    fds := fun fd => if p.fds fd then (s.fds fd).or (some .file) else none })

def ebadf : Errno := ⟨9,by decide,by decide⟩
def echild : Errno := ⟨10,by decide,by decide⟩

/-- `waitid(WaitId::PidFd(fd), EXITED)`; `none` is that it waits. -/
def waitid (s : Guest) (fd : Fd) : Except Errno (Option (ℕ × Exit)) :=
  match s.fds fd with
  | some (.child k) =>
    match s.children[k]? with
    | some (.zombie e) => .ok (some (k,e))
    | some .running => .ok none
    | _ => .error echild
  | _ => .error ebadf

/-- `hdl.close(false)` of slot `i`. -/
def close (s : Guest) (i : Fin nHandles) : Guest :=
  { s with
    table := closeHandle s.table i
    fds := ((s.table.slots i).closes false).foldl (fun f fd => Function.update f fd none) s.fds }

inductive Joined
  | waits
  | panics
  | returns (r : Except LiliumError JoinStatus) (s : Guest)

def joinProcess (proc base hdl : Word) (s : Guest) : Joined :=
  match tryDeref base hdl s.table with
  | .error e => .returns (.error e) s
  | .ok i =>
    match (s.table.slots i).checkType proc 0#64 with
    | .error e => .returns (.error e) s
    | .ok () =>
      match (s.table.slots i).borrowFd with
      | none => .panics
      | some fd =>
        match s.waitid fd with
        | .error e => .returns (.error (linuxErrorToLilium e)) s
        | .ok none => .waits
        | .ok (some (k,e)) =>
          .returns (.ok (joinStatus e)) (({ s with children := s.children.set k .reaped }).close i)

/-- How `IOWrite` and `IORead` end, given the call they make on a descriptor. -/
inductive Transfer
  | panics
  | returns (r : Except LiliumError ℕ)

def ioCall (io base hdl : Word) (sys : Fd → Except Errno ℕ) (s : Guest) : Transfer :=
  match tryDeref base hdl s.table with
  | .error e => .returns (.error e)
  | .ok i =>
    match (s.table.slots i).checkType io 0xF0000000#64 with
    | .error e => .returns (.error e)
    | .ok () =>
      match (s.table.slots i).borrowFd with
      | none => .panics
      | some fd => .returns ((sys fd).mapError linuxErrorToLilium)

def ioWrite (io base hdl : Word) (write : Fd → Except Errno ℕ) (s : Guest) : Transfer :=
  ioCall io base hdl write s

def ioRead (io base hdl : Word) (read : Fd → Except Errno ℕ) (s : Guest) : Transfer :=
  ioCall io base hdl read s

/-- The handle of a standard stream. -/
def stdHandle (io : Word) (fd : Word) : Handle := ⟨io,0#64,0#64,fd⟩

/-- `get_init_handles`; `none` is a panic. -/
def getInitHandles (base io : Word) (t : Table) : Option (List Word × Table) :=
  match insertHandle base (stdHandle io 0#64) t with
  | (.error _,_) => none
  | (.ok stdin,t) =>
    match insertHandle base (stdHandle io 1#64) t with
    | (.error _,_) => none
    | (.ok stdout,t) =>
      match insertHandle base (stdHandle io 2#64) t with
      | (.error _,_) => none
      | (.ok stderr,t) => some ([stdin,stdout,stderr],t)

end Guest

/-- `openat` returns a descriptor that is not negative. -/
structure OpenKernel extends Io.Kernel where
  nonneg : ∀ {fds d path flags mode fd}, openat fds d path flags mode = .ok fd → fd.toNat < 2^31

/-- What the thread calls and what its children do. -/
inductive GuestEvent
  | openFile (K : OpenKernel) (a : Io.OpenArgs)
  | create (o : Outcomes) (es : List Who) (e : Exit)
  | join (hdl : Word)
  | exits (k : ℕ) (e : Exit)

instance (o : Outcomes) (f : Fd → Option File) : Decidable (o.Fresh f) :=
  decidable_of_iff (f o.readFd = none ∧ f o.writeFd = none ∧ f o.pidFd = none ∧
      o.readFd ≠ o.writeFd ∧ o.readFd ≠ o.pidFd ∧ o.writeFd ≠ o.pidFd ∧ o.pidFd.toNat < 2^31)
    ⟨fun ⟨h₁,h₂,h₃,h₄,h₅,h₆,h₇⟩ => ⟨h₁,h₂,h₃,h₄,h₅,h₆,h₇⟩,
      fun ⟨h₁,h₂,h₃,h₄,h₅,h₆,h₇⟩ => ⟨h₁,h₂,h₃,h₄,h₅,h₆,h₇⟩⟩

/-- A call that waits or panics is not a step. -/
def Guest.step {C : Io.Constants} (T : HandleTypes C) (base : Word) (s : Guest) :
    GuestEvent → Option Guest
  | .openFile K a => some (s.openFile C K.toKernel base a).2
  | .create o es e =>
    if o.Fresh s.files then (s.createProcess base T.proc o es e).map Prod.snd else none
  | .join hdl =>
    match s.joinProcess T.proc base hdl with
    | .returns _ s => some s
    | _ => none
  | .exits k e =>
    if s.children[k]? = some .running then some { s with children := s.children.set k (.zombie e) }
    else none

/-- The thread as the guest's first instruction finds it, with the standard streams and whatever
other files its starter left open. -/
def Guest.Booted {C : Io.Constants} (T : HandleTypes C) (base : Word) (s : Guest) : Prop :=
  (∃ hdls, Guest.getInitHandles base T.io .initial = some (hdls,s.table)) ∧ s.children = [] ∧
    (∀ fd, s.fds fd = none ∨ s.fds fd = some .file) ∧
    s.fds 0#32 = some .file ∧ s.fds 1#32 = some .file ∧ s.fds 2#32 = some .file

end WinterLily.Process
