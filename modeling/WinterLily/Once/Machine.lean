import WinterLily.Base.Transition
import Mathlib.Data.BitVec

/-! `OnceLock` of `wl-helpers/src/lib.rs` under threads: one atomic access of `try_get_or_init` at
a time, down to the store the dropped `PoisonOnDrop` performs after the failing path's own store.
The value cell is the history of its writes, newest first, so an overwrite is visible. -/
namespace WinterLily.Once

abbrev Flags := BitVec 64

namespace Flag

def lock : Flags := 0x0001#64
def init : Flags := 0x0002#64
def poisoned : Flags := 1#64 <<< 63

end Flag

/-- `word & flag != 0`. -/
def Flags.has (word flag : Flags) : Bool := word &&& flag != 0#64

/-- How `try_get_or_init` ends. A reference carries what the cell held when it was made. -/
inductive Outcome (V : Type*)
  | reference (seen : Option V)
  | residual
  | panicked
  deriving DecidableEq, Repr

/-- The program points of `try_get_or_init`. The closure is represented by what it returns:
`some v` for `Continue(v)`, `none` for `Break`. -/
inductive Pc (V : Type*)
  | idle
  | isInit (f : Option V)
  | checkPoison (f : Option V)
  | fetchOr (f : Option V)
  | spin (f : Option V)
  | recheck (f : Option V) (m : Flags)
  | running (f : Option V)
  | write (v : V)
  | publish
  | deliver
  | failing
  | dropping
  | returned (o : Outcome V)
  deriving DecidableEq, Repr

/-- The shared half of the state; `refs` lists the references handed out so far. -/
structure Memory (V : Type*) where
  lock : Flags
  writes : List V
  refs : List (Option V)
  deriving DecidableEq, Repr

/-- The public calls that go through `try_get_or_init`. -/
inductive Call (V E : Type*)
  | get
  | set (v : V)
  | getOrInit (v : V)
  | getOrTryInit (r : Except E V)

/-- The closure each of them passes. -/
def Call.initialiser {V E : Type*} : Call V E → Option V
  | .get => none
  | .set v => some v
  | .getOrInit v => some v
  | .getOrTryInit (.ok v) => some v
  | .getOrTryInit (.error _) => none

section Thread

variable {V : Type*}

/-- `m = self.lock.fetch_or(LOCK)`, at the first try and inside the wait loop alike. -/
def fetchLock (g : Memory V) (f : Option V) : Memory V × Pc V :=
  ({ g with lock := g.lock ||| Flag.lock },
    if g.lock.has Flag.lock then .spin f else .recheck f g.lock)

/-- The next atomic access of one thread. -/
def threadStep (g : Memory V) : Pc V → Option (Memory V × Pc V)
  | .idle | .returned _ => none
  | .isInit f => some (g,if g.lock.has Flag.init then .deliver else .checkPoison f)
  | .checkPoison f =>
    some (g,if g.lock.has Flag.poisoned then .returned .panicked else .fetchOr f)
  | .fetchOr f => some (fetchLock g f)
  | .spin f => some (fetchLock g f)
  | .recheck f m =>
    some (g,if g.lock.has Flag.poisoned then .returned .panicked
      else if m.has Flag.init then .deliver else .running f)
  | .running (some v) => some (g,.write v)
  | .running none => some (g,.failing)
  | .write v => some ({ g with writes := v::g.writes },.publish)
  | .publish => some ({ g with lock := Flag.init },.deliver)
  | .deliver =>
    some ({ g with refs := g.writes.head?::g.refs },.returned (.reference g.writes.head?))
  | .failing => some ({ g with lock := 0#64 },.dropping)
  | .dropping => some ({ g with lock := Flag.poisoned },.returned .residual)

end Thread

structure State (ι V : Type*) extends Memory V where
  pc : ι → Pc V

inductive Label (ι V E : Type*)
  | call (i : ι) (c : Call V E)
  | run (i : ι)

section Machine

variable {ι V E : Type*} [DecidableEq ι]

/-- `OnceLock::new()`, shared by threads that have not called it yet. -/
def State.initial : State ι V := ⟨⟨0#64,[],[]⟩,fun _ => .idle⟩

def State.put (s : State ι V) (i : ι) (r : Memory V × Pc V) : State ι V :=
  ⟨r.1,Function.update s.pc i r.2⟩

/-- A thread may call again once its last call has returned normally. -/
def Pc.callable : Pc V → Bool
  | .idle | .returned (.reference _) | .returned .residual => true
  | _ => false

def step (s : State ι V) : Label ι V E → Option (State ι V)
  | .call i c =>
    if (s.pc i).callable then some (s.put i (s.toMemory,.isInit c.initialiser)) else none
  | .run i => (threadStep s.toMemory (s.pc i)).map (s.put i)

@[simp] theorem put_toMemory (s : State ι V) (i : ι) (r : Memory V × Pc V) :
    (s.put i r).toMemory = r.1 := rfl

@[simp] theorem put_pc_self (s : State ι V) (i : ι) (r : Memory V × Pc V) :
    (s.put i r).pc i = r.2 := by simp [State.put]

theorem put_pc_of_ne (s : State ι V) {i j : ι} (h : j ≠ i) (r : Memory V × Pc V) :
    (s.put i r).pc j = s.pc j := by simp [State.put,h]

end Machine

end WinterLily.Once
