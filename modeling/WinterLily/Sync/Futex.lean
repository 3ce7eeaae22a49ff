import WinterLily.Base.Transition
import Mathlib.Data.BitVec

/-! The futex word lock of `wl-helpers/src/sync.rs`, one atomic instruction at a time. A thread is
the program counter inside the lock's functions together with the holds it owns; the scheduler
picks which thread moves, whether a weak compare-exchange fails spuriously, and when the kernel
lets a parked thread return. -/
namespace WinterLily.Sync

abbrev Word := BitVec 32

/-- `0x80000000`, the bit that an exclusive holder stores. -/
def exclusiveBit : Word := 0x80000000#32

inductive Backoff
  | spinLoop
  | schedYield
  | futexWait
  deriving DecidableEq, Repr

/-- The `match step` both locking loops share. -/
def backoff (step : ℕ) : Backoff :=
  if step < 32 then .spinLoop else if step < 256 then .schedYield else .futexWait

/-- `step.saturating_add(1)` on a `u16`. -/
def saturatingSucc (step : ℕ) : ℕ := min (step+1) 65535

/-- The word a failed exclusive compare-exchange saw: a zero is retried without backing off. -/
abbrev Contended := { e : Word // e ≠ 0 }

/-- Where a thread is inside the lock. A returned `try_` call leaves its answer in `idle`. -/
inductive Pc
  | idle (result : Option Bool)
  | lockExclusive (step : ℕ)
  | lockExclusiveBackoff (step : ℕ) (e : Contended)
  | lockExclusiveParked (step : ℕ)
  | lockShared (step : ℕ) (load : Word)
  | lockSharedParked (step : ℕ) (load : Word)
  | tryLockExclusive
  | tryLockSharedLoad
  | tryLockShared (load : Word)
  | unlockExclusive
  | unlockShared
  | downgrade
  deriving DecidableEq, Repr

structure Thread where
  pc : Pc
  shared : ℕ
  exclusive : ℕ
  deriving DecidableEq, Repr

/-- The functions of `RawRwLock`, `RawRwLockDowngrade` and, through them, `RawMutex`. -/
inductive Call
  | lockExclusive
  | lockShared
  | tryLockExclusive
  | tryLockShared
  | unlockExclusive
  | unlockShared
  | downgrade
  deriving DecidableEq, Repr

namespace Call

def entry : Call → Pc
  | .lockExclusive => .lockExclusive 0
  | .lockShared => .lockShared 0 0
  | .tryLockExclusive => .tryLockExclusive
  | .tryLockShared => .tryLockSharedLoad
  | .unlockExclusive => .unlockExclusive
  | .unlockShared => .unlockShared
  | .downgrade => .downgrade

/-- The safety contract of the unsafe functions: the caller holds the matching mode. -/
def allowed (c : Call) (t : Thread) : Bool :=
  match c with
  | .unlockExclusive | .downgrade => decide (0 < t.exclusive)
  | .unlockShared => decide (0 < t.shared)
  | _ => true

/-- `RawMutex for Futex` forwards to the exclusive half. -/
def mutexLock : Call := .lockExclusive
def mutexTryLock : Call := .tryLockExclusive
def mutexUnlock : Call := .unlockExclusive

end Call

/-- The next atomic instruction of one thread against the lock word. -/
def threadStep (w : Word) (t : Thread) (spurious : Bool) : Option (Word × Thread) :=
  match t.pc with
  | .idle _ | .lockExclusiveParked _ | .lockSharedParked _ _ => none
  | .lockExclusive step =>
    if hw : w = 0 then
      if spurious then some (w,t)
      else some (exclusiveBit,{ t with pc := .idle none, exclusive := t.exclusive+1 })
    else some (w,{ t with pc := .lockExclusiveBackoff step ⟨w,hw⟩ })
  | .lockExclusiveBackoff step e =>
    if backoff step = .futexWait ∧ w = e.val then
      some (w,{ t with pc := .lockExclusiveParked step })
    else some (w,{ t with pc := .lockExclusive (saturatingSucc step) })
  | .lockShared step load =>
    if load &&& exclusiveBit = 0 then
      if w = load ∧ spurious = false then
        some (load+1,{ t with pc := .idle none, shared := t.shared+1 })
      else some (w,{ t with pc := .lockShared step w })
    else if backoff step = .futexWait ∧ w = load then
      some (w,{ t with pc := .lockSharedParked step load })
    else some (w,{ t with pc := .lockShared (saturatingSucc step) load })
  | .tryLockExclusive =>
    if w = 0 then
      some (exclusiveBit,{ t with pc := .idle (some true), exclusive := t.exclusive+1 })
    else some (w,{ t with pc := .idle (some false) })
  | .tryLockSharedLoad => some (w,{ t with pc := .tryLockShared w })
  | .tryLockShared load =>
    if load &&& exclusiveBit = 0 then
      if w = load ∧ spurious = false then
        some (load+1,{ t with pc := .idle (some true), shared := t.shared+1 })
      else some (w,{ t with pc := .tryLockShared w })
    else some (w,{ t with pc := .idle (some false) })
  | .unlockExclusive => some (0,{ t with pc := .idle none, exclusive := t.exclusive-1 })
  | .unlockShared => some (w-1,{ t with pc := .idle none, shared := t.shared-1 })
  | .downgrade =>
    some (1,{ pc := .idle none, shared := t.shared+1, exclusive := t.exclusive-1 })

/-- Returning from `futex::wait`, whose result the loops ignore. -/
def unpark (t : Thread) : Option Thread :=
  match t.pc with
  | .lockExclusiveParked step => some { t with pc := .lockExclusive (saturatingSucc step) }
  | .lockSharedParked step load => some { t with pc := .lockShared (saturatingSucc step) load }
  | _ => none

/-- The lock and its threads. `wakes` counts the futex wakes issued and not yet consumed. -/
structure State (ι : Type*) where
  word : Word
  thread : ι → Thread
  wakes : ℕ

inductive Label (ι : Type*)
  | call (i : ι) (c : Call)
  | run (i : ι) (spurious : Bool)
  | resume (i : ι)
  | interrupt (i : ι)
  deriving DecidableEq, Repr

section Machine

variable {ι : Type*} [DecidableEq ι]

def State.set (s : State ι) (i : ι) (t : Thread) : State ι :=
  { s with thread := Function.update s.thread i t }

/-- `Self(AtomicU32::new(0))`, before any thread has called into it. -/
def State.initial : State ι := ⟨0,fun _ => ⟨.idle none,0,0⟩,0⟩

/-- A parked thread returns on a wake, or on a signal (`interrupt`). None of the functions issues
a wake, so no branch below raises `wakes`. -/
def step (s : State ι) : Label ι → Option (State ι)
  | .call i c =>
    match (s.thread i).pc with
    | .idle _ =>
      if c.allowed (s.thread i) then some (s.set i { s.thread i with pc := c.entry }) else none
    | _ => none
  | .run i spurious =>
    (threadStep s.word (s.thread i) spurious).map fun r => { s.set i r.2 with word := r.1 }
  | .resume i =>
    if 0 < s.wakes then (unpark (s.thread i)).map fun t => { s.set i t with wakes := s.wakes-1 }
    else none
  | .interrupt i => (unpark (s.thread i)).map (s.set i)

end Machine

end WinterLily.Sync
