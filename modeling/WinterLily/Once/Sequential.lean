import WinterLily.Once.Machine

/-! `OnceLock` and `LazyLock` called from one thread, through both the shared and the exclusive
paths. A closure is run on the state it captures. -/
namespace WinterLily.Once

/-- The ways a call does not return: a panic, the wait loop with nobody to end it, or a read of
the `MaybeUninit` before it is written. -/
inductive Fault
  | panic
  | hang
  | uninit
  deriving DecidableEq, Repr

structure Cell (V : Type*) where
  lock : Flags
  val : Option V
  deriving DecidableEq, Repr

namespace Cell

variable {V E σ : Type*}

/-- `OnceLock::new()`. -/
def new : Cell V := ⟨0#64,none⟩

def isInit (c : Cell V) : Bool := c.lock.has Flag.init
def isPoisoned (c : Cell V) : Bool := c.lock.has Flag.poisoned

def read (c : Cell V) : Except Fault V :=
  match c.val with
  | some v => .ok v
  | none => .error .uninit

/-- The drop of `PoisonOnDrop`. -/
def dropBomb (c : Cell V) : Cell V := { c with lock := Flag.poisoned }

/-- `try_get_or_init`: the failing path lets the guard drop after storing 0. -/
def tryGetOrInit (c : Cell V) (env : σ) (f : σ → Except Fault (Except E V × σ)) :
    Except Fault (Except E V × σ × Cell V) :=
  if c.isInit then c.read.map fun v => (.ok v,env,c)
  else if c.isPoisoned then .error .panic
  else
    let m := c.lock
    let c := { c with lock := c.lock ||| Flag.lock }
    if m.has Flag.lock then .error .hang
    else if c.isPoisoned then .error .panic
    else if m.has Flag.init then c.read.map fun v => (.ok v,env,c)
    else (f env).map fun
      | (.ok v,env) => (.ok v,env,{ lock := Flag.init, val := some v })
      | (.error e,env) => (.error e,env,dropBomb { c with lock := 0#64 })

/-- `try_get_or_init_mut`: both paths forget the guard. -/
def tryGetOrInitMut (c : Cell V) (env : σ) (f : σ → Except Fault (Except E V × σ)) :
    Except Fault (Except E V × σ × Cell V) :=
  if c.isPoisoned then .error .panic
  else if c.isInit then c.read.map fun v => (.ok v,env,c)
  else if c.lock.has Flag.lock then .error .panic
  else (f env).map fun
    | (.ok v,env) => (.ok v,env,{ lock := Flag.init, val := some v })
    | (.error e,env) => (.error e,env,{ c with lock := 0#64 })

end Cell

/-- Which of the two paths a call takes. -/
inductive Mode
  | shared
  | exclusive
  deriving DecidableEq, Repr

/-- The public calls; only `set` and `take` have a single path. -/
inductive Request (V E : Type*)
  | get (m : Mode)
  | getOrInit (m : Mode) (v : V)
  | getOrTryInit (m : Mode) (r : Except E V)
  | set (v : V)
  | take

inductive Answer (V E : Type*)
  | option (o : Option V)
  | value (v : V)
  | result (r : Except E V)
  | stored (r : Except V Unit)

namespace Cell

variable {V E σ : Type*}

def access (m : Mode) (c : Cell V) (env : σ) (f : σ → Except Fault (Except E V × σ)) :
    Except Fault (Except E V × σ × Cell V) :=
  match m with
  | .shared => c.tryGetOrInit env f
  | .exclusive => c.tryGetOrInitMut env f

/-- `get` and `get_mut`. -/
def get (m : Mode) (c : Cell V) : Except Fault (Option V × Cell V) :=
  (c.access m () fun _ => .ok ((.error () : Except Unit V),())).map fun (r,_,c) => (r.toOption,c)

/-- `get_or_init` and `get_or_init_mut`: a closure wrapped in `Success` cannot fail. -/
def getOrInit (m : Mode) (c : Cell V) (v : V) : Except Fault (V × Cell V) :=
  (c.access m () fun _ => .ok ((.ok v : Except Empty V),())).map fun
    | (.ok w,_,c) => (w,c)

/-- `get_or_try_init` and `get_or_try_init_mut`. -/
def getOrTryInit (m : Mode) (c : Cell V) (r : Except E V) :
    Except Fault (Except E V × Cell V) :=
  (c.access m () fun _ => .ok (r,())).map fun (r,_,c) => (r,c)

/-- `set`: the closure takes the captured value, and what is left decides the answer. -/
def set (c : Cell V) (v : V) : Except Fault (Except V Unit × Cell V) :=
  (c.access .shared (some v) fun val =>
    .ok ((match val with | some v => .ok v | none => .error () : Except Unit V),none)).map fun
    | (_,some v,c) => (.error v,c)
    | (_,none,c) => (.ok (),c)

def take (c : Cell V) : Except Fault (Option V × Cell V) :=
  if c.isInit then c.read.map fun v => (some v,{ c with lock := 0#64 }) else .ok (none,c)

def call (c : Cell V) : Request V E → Except Fault (Answer V E × Cell V)
  | .get m => (c.get m).map fun (o,c) => (.option o,c)
  | .getOrInit m v => (c.getOrInit m v).map fun (w,c) => (.value w,c)
  | .getOrTryInit m r => (c.getOrTryInit m r).map fun (r,c) => (.result r,c)
  | .set v => (c.set v).map fun (r,c) => (.stored r,c)
  | .take => c.take.map fun (o,c) => (.option o,c)

/-- A sequence of calls, with all answers, or the first fault. -/
def calls (c : Cell V) : List (Request V E) → Except Fault (List (Answer V E) × Cell V)
  | [] => .ok ([],c)
  | q::qs =>
    match c.call q with
    | .error e => .error e
    | .ok (a,c) => (c.calls qs).map fun (as,c) => (a::as,c)

end Cell

/-- `LazyLock`: the initialiser is kept as the value it would return. -/
structure Lazy (V : Type*) where
  onceLock : Cell V
  initFn : Option V
  deriving DecidableEq, Repr

namespace Lazy

variable {V : Type*}

def new (v : V) : Lazy V := ⟨Cell.new,some v⟩

/-- `LazyLock::get` and `get_mut`. -/
def get (m : Mode) (l : Lazy V) : Except Fault (Option V × Lazy V) :=
  (l.onceLock.get m).map fun (o,c) => (o,{ l with onceLock := c })

/-- `force` and `force_mut`: the closure empties `init_fn` and panics when it is empty already. -/
def force (m : Mode) (l : Lazy V) : Except Fault (V × Lazy V) :=
  (l.onceLock.access m l.initFn fun
    | some v => .ok ((.ok v : Except Empty V),none)
    | none => .error .panic).map fun
    | (.ok w,initFn,c) => (w,⟨c,initFn⟩)

/-- Some queries, then `force`. -/
def forceAfter (l : Lazy V) : List Mode → Except Fault (V × Lazy V)
  | [] => l.force .shared
  | m::ms =>
    match l.get m with
    | .error e => .error e
    | .ok (_,l) => l.forceAfter ms

end Lazy

end WinterLily.Once
