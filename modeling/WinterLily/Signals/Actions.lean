import Mathlib.Data.BitVec
import Mathlib.Data.List.Basic

/-! Signal dispositions: the `sigaction` of `libc_defs.rs` over `rt_sigaction`, what it amounts to for
its callers, and `__install_sa_handler` of `x86_64.c`. -/
namespace WinterLily.Signals

abbrev Word := BitVec 64

/-- The kernel's record of an action. Handlers 0 and 1 are `SIG_DFL` and `SIG_IGN`. -/
structure KernelSigaction where
  handler : Word
  flags : Word
  restorer : Word
  mask : Word
  deriving DecidableEq, Repr

/-- `sigaction_t`. -/
structure Sigaction where
  handler : Word
  mask : Word
  flags : BitVec 32
  deriving DecidableEq, Repr

/-- The kernel's actions by signal number. -/
abbrev Actions := ℕ → KernelSigaction

def saSiginfo : BitVec 32 := 0x4#32
def saRestorer : BitVec 32 := 0x4000000#32
def saRestart : BitVec 32 := 0x10000000#32

/-- The bits of `sa_flags` that the kernel knows. -/
def uapiSaFlags : Word := 0xDC000807#64

def sigquit : ℕ := 3
def sigbus : ℕ := 7
def sigkill : ℕ := 9
def sigsegv : ℕ := 11
def sigchld : ℕ := 17
def sigcont : ℕ := 18
def sigstop : ℕ := 19
def sigsys : ℕ := 31

/-- The two signals that no mask blocks, as bits of a mask. -/
def unblockable : Word := 1#64 <<< (sigkill-1) ||| 1#64 <<< (sigstop-1)

def einval : ℤ := 22

/-- A number that `rt_sigaction` takes. -/
def Settable (sig : ℤ) (set : Bool) : Prop :=
  1 ≤ sig ∧ sig ≤ 64 ∧ ¬ (set = true ∧ (sig = sigkill ∨ sig = sigstop))

instance (sig : ℤ) (set : Bool) : Decidable (Settable sig set) := inferInstanceAs (Decidable (_ ∧ _))

/-- What the kernel keeps of a new action. -/
def KernelSigaction.kept (a : KernelSigaction) : KernelSigaction :=
  { a with flags := a.flags &&& uapiSaFlags, mask := a.mask &&& ~~~unblockable }

/-- The system call: the old action and the actions from then on, or an error number. -/
def rtSigaction (t : Actions) (sig : ℤ) (act : Option KernelSigaction) :
    Except ℤ (KernelSigaction × Actions) :=
  if Settable sig act.isSome then
    .ok (t sig.toNat,act.elim t fun a => Function.update t sig.toNat a.kept)
  else .error einval

/-- The record `sigaction` passes for an action. -/
def kernelAction (implRestorer : Word) (a : Sigaction) : KernelSigaction :=
  ⟨a.handler,(a.flags ||| saRestorer ||| saSiginfo ||| saRestart).setWidth 64,implRestorer,a.mask⟩

/-- The action `sigaction` reports for a record. -/
def reported (k : KernelSigaction) : Sigaction :=
  ⟨k.handler,k.mask,k.flags.setWidth 32 &&& ~~~saRestorer⟩

/-- `sigaction`: its result, what it writes through `src`, and the actions afterwards. -/
def sigaction (implRestorer : Word) (t : Actions) (signum : ℤ) (action : Option Sigaction)
    (src : Bool) : (ℤ × Option Sigaction) × Actions :=
  match rtSigaction t signum (action.map (kernelAction implRestorer)) with
  | .error e => ((-e,none),t)
  | .ok (old,t) => ((0,if src then some (reported old) else none),t)

/-- The loop of `__install_sa_handler` over the numbers still to come. -/
def installLoop (implRestorer saHandlerImpl : Word) : Actions → List ℕ → Actions
  | t,[] => t
  | t,i::is =>
    installLoop implRestorer saHandlerImpl
      (sigaction implRestorer t i (some ⟨saHandlerImpl,0#64,saSiginfo⟩) false).2 is

/-- `__install_sa_handler`. -/
def installSaHandler (implRestorer saHandlerImpl : Word) (t : Actions) : Actions :=
  installLoop implRestorer saHandlerImpl t (List.range 32)

section Specification

/-- What a caller may think `sigaction` works on: actions as it knows them. -/
abbrev View := ℕ → Sigaction

/-- The action in force after it is set: always with the extended handler and restarting calls, and
never blocking what cannot be blocked. -/
def Sigaction.inForce (a : Sigaction) : Sigaction :=
  ⟨a.handler,a.mask &&& ~~~unblockable,
    (a.flags ||| saSiginfo ||| saRestart) &&& uapiSaFlags.setWidth 32 &&& ~~~saRestorer⟩

def specSigaction (v : View) (signum : ℤ) (action : Option Sigaction) (src : Bool) :
    (ℤ × Option Sigaction) × View :=
  if Settable signum action.isSome then
    ((0,if src then some (v signum.toNat) else none),
      action.elim v fun a => Function.update v signum.toNat a.inForce)
  else ((-einval,none),v)

/-- The kernel's record is the caller's, and a handler can be returned from. -/
structure Shows (implRestorer : Word) (k : KernelSigaction) (a : Sigaction) : Prop where
  reported : reported k = a
  restorer : 2 ≤ k.handler.toNat →
    k.restorer = implRestorer ∧ k.flags &&& saRestorer.setWidth 64 ≠ 0#64

def Simulates (implRestorer : Word) (t : Actions) (v : View) : Prop :=
  ∀ n, 1 ≤ n → n ≤ 64 → Shows implRestorer (t n) (v n)

variable {implRestorer : Word} {t : Actions} {v : View}

lemma flags_reported (f : BitVec 32) :
    ((f ||| saRestorer ||| saSiginfo ||| saRestart).setWidth 64 &&& uapiSaFlags).setWidth 32 &&&
        ~~~saRestorer =
      (f ||| saSiginfo ||| saRestart) &&& uapiSaFlags.setWidth 32 &&& ~~~saRestorer := by
  ext i hi
  have h64 : i < 64 := by omega
  simp only [BitVec.getElem_and,BitVec.getElem_or,BitVec.getElem_not,BitVec.getElem_setWidth,
    BitVec.getLsbD_and,BitVec.getLsbD_setWidth,BitVec.getLsbD_eq_getElem hi,h64,decide_true,
    Bool.true_and]
  cases saRestorer[i] <;> simp

/-- The bit for the restorer is one the kernel knows. -/
lemma restorer_kept (f : BitVec 32) :
    (f ||| saRestorer ||| saSiginfo ||| saRestart).setWidth 64 &&& uapiSaFlags &&&
      saRestorer.setWidth 64 ≠ 0#64 := by
  intro h
  have hbit := congrArg (fun w => w.getLsbD 26) h
  simp [saRestorer,uapiSaFlags] at hbit

lemma shows_set (a : Sigaction) : Shows implRestorer (kernelAction implRestorer a).kept a.inForce := by
  refine ⟨?_,fun _ => ⟨rfl,restorer_kept _⟩⟩
  simp only [reported,KernelSigaction.kept,kernelAction,Sigaction.inForce,flags_reported]

/-- One call, seen from both sides. -/
lemma simulates_sigaction (h : Simulates implRestorer t v) (signum : ℤ) (action : Option Sigaction)
    (src : Bool) :
    (sigaction implRestorer t signum action src).1 = (specSigaction v signum action src).1 ∧
      Simulates implRestorer (sigaction implRestorer t signum action src).2
        (specSigaction v signum action src).2 := by
  have hsome : (action.map (kernelAction implRestorer)).isSome = action.isSome :=
    Option.isSome_map
  unfold sigaction specSigaction rtSigaction
  rw [hsome]
  by_cases hs : Settable signum action.isSome
  · have hrep : reported (t signum.toNat) = v signum.toNat := by
      obtain ⟨hlo,hhi,-⟩ := hs
      exact (h signum.toNat (by omega) (by omega)).reported
    simp only [hs,if_true]
    refine ⟨by rw [hrep],?_⟩
    cases action with
    | none => exact h
    | some a =>
      intro n hlo hhi
      by_cases hn : n = signum.toNat
      · subst hn
        simp only [Option.map_some,Option.elim_some,Function.update_self]
        exact shows_set a
      · simp only [Option.map_some,Option.elim_some,Function.update_of_ne hn]
        exact h n hlo hhi
  · simp only [hs,if_false]
    exact ⟨trivial,h⟩

/-- The arguments of one `sigaction`. -/
structure Call where
  signum : ℤ
  action : Option Sigaction
  src : Bool

/-- The results of one call after another. -/
def sigactions (implRestorer : Word) : Actions → List Call → List (ℤ × Option Sigaction) × Actions
  | t,[] => ([],t)
  | t,c::cs =>
    let (r,t) := sigaction implRestorer t c.signum c.action c.src
    let (rs,t) := sigactions implRestorer t cs
    (r::rs,t)

def specSigactions : View → List Call → List (ℤ × Option Sigaction) × View
  | v,[] => ([],v)
  | v,c::cs =>
    let (r,v) := specSigaction v c.signum c.action c.src
    let (rs,v) := specSigactions v cs
    (r::rs,v)

/-- One call after another, seen from both sides. -/
lemma simulates_sigactions (h : Simulates implRestorer t v) (calls : List Call) :
    (sigactions implRestorer t calls).1 = (specSigactions v calls).1 ∧
      Simulates implRestorer (sigactions implRestorer t calls).2 (specSigactions v calls).2 := by
  induction calls generalizing t v with
  | nil => exact ⟨rfl,h⟩
  | cons c calls ih =>
    obtain ⟨hres,hsim⟩ := simulates_sigaction h c.signum c.action c.src
    obtain ⟨hrest,hend⟩ := ih hsim
    exact ⟨congrArg₂ List.cons hres hrest,hend⟩

/-- The actions of a process that has just started, which has no handlers. -/
def Actions.initial : Actions := fun _ => ⟨0#64,0#64,0#64,0#64⟩

lemma simulates_initial : Simulates implRestorer .initial fun _ => ⟨0#64,0#64,0#32⟩ := by
  intro n _ _
  refine ⟨?_,fun h => ?_⟩
  · change reported ⟨0#64,0#64,0#64,0#64⟩ = ⟨0#64,0#64,0#32⟩
    decide
  · change 2 ≤ (0#64).toNat at h
    simp at h

end Specification

section Installation

variable {implRestorer saHandlerImpl : Word}

/-- The record that `__install_sa_handler` leaves. -/
def installed (implRestorer saHandlerImpl : Word) : KernelSigaction :=
  ⟨saHandlerImpl,(saRestorer ||| saSiginfo ||| saRestart).setWidth 64,implRestorer,0#64⟩

/-- The signals that the handler takes. -/
def Caught (n : ℕ) : Prop := 1 ≤ n ∧ n < 32 ∧ n ≠ sigkill ∧ n ≠ sigstop

instance (n : ℕ) : Decidable (Caught n) := inferInstanceAs (Decidable (_ ∧ _))

lemma kept_installed : (kernelAction implRestorer ⟨saHandlerImpl,0#64,saSiginfo⟩).kept =
    installed implRestorer saHandlerImpl := by
  have hflags : (saSiginfo ||| saRestorer ||| saSiginfo ||| saRestart).setWidth 64 &&& uapiSaFlags =
      (saRestorer ||| saSiginfo ||| saRestart).setWidth 64 := by decide
  simp only [kernelAction,KernelSigaction.kept,installed,hflags,BitVec.zero_and]

lemma sigaction_install (t : Actions) (i : ℕ) :
    (sigaction implRestorer t i (some ⟨saHandlerImpl,0#64,saSiginfo⟩) false).2 =
      if Settable i true then Function.update t i (installed implRestorer saHandlerImpl) else t := by
  unfold sigaction rtSigaction
  by_cases hs : Settable i true
  · simp only [Option.map_some,Option.isSome_some,hs,if_true,Option.elim_some,Int.toNat_natCast,
      kept_installed]
  · simp only [Option.map_some,Option.isSome_some,hs,if_false]

lemma installLoop_apply (t : Actions) (is : List ℕ) (n : ℕ) :
    installLoop implRestorer saHandlerImpl t is n =
      if n ∈ is ∧ Settable n true then installed implRestorer saHandlerImpl else t n := by
  induction is generalizing t with
  | nil => simp [installLoop]
  | cons i is ih =>
    rw [installLoop,ih,sigaction_install]
    by_cases hni : n = i
    · subst hni
      by_cases hs : Settable n true <;> simp [hs]
    · by_cases hs : Settable i true <;> simp [hs,hni]

/-- After `__install_sa_handler` the handler takes every signal below 32 that can be caught, with the
signal blocked while it runs, and the others are as before. -/
theorem installSaHandler_apply (t : Actions) (n : ℕ) :
    installSaHandler implRestorer saHandlerImpl t n =
      if Caught n then installed implRestorer saHandlerImpl else t n := by
  have hiff : (n ∈ List.range 32 ∧ Settable n true) ↔ Caught n := by
    simp only [List.mem_range,Settable,Caught,sigkill,sigstop,true_and]
    omega
  rw [installSaHandler,installLoop_apply]
  simp only [hiff]

/-- The caller's actions after `__install_sa_handler`. -/
def View.install (saHandlerImpl : Word) (v : View) : View := fun n =>
  if Caught n then Sigaction.inForce ⟨saHandlerImpl,0#64,saSiginfo⟩ else v n

lemma simulates_install {t : Actions} {v : View} (h : Simulates implRestorer t v) :
    Simulates implRestorer (installSaHandler implRestorer saHandlerImpl t)
      (v.install saHandlerImpl) := by
  intro n hlo hhi
  rw [installSaHandler_apply,View.install]
  split_ifs with hn
  · rw [← kept_installed]
    exact shows_set _
  · exact h n hlo hhi

/-- No sequence of calls, whatever they ask, before or after the handler is installed, tells the
wrapper from a table of the caller's actions, and every handler it leaves in the kernel has the
restorer. -/
theorem sigactions_refine {t : Actions} {v : View} (h : Simulates implRestorer t v)
    (calls : List Call) :
    ((sigactions implRestorer t calls).1 = (specSigactions v calls).1 ∧
      Simulates implRestorer (sigactions implRestorer t calls).2 (specSigactions v calls).2) ∧
    ((sigactions implRestorer (installSaHandler implRestorer saHandlerImpl t) calls).1 =
        (specSigactions (v.install saHandlerImpl) calls).1 ∧
      Simulates implRestorer
        (sigactions implRestorer (installSaHandler implRestorer saHandlerImpl t) calls).2
        (specSigactions (v.install saHandlerImpl) calls).2) :=
  ⟨simulates_sigactions h calls,simulates_sigactions (simulates_install h) calls⟩

/-- In a process that has just started the handler is installed, one signal gets another, `SIGKILL`
is refused, and both are asked for. -/
theorem sigactions_refine_initial :
    (sigactions 0x7000#64 (installSaHandler 0x7000#64 0x4000#64 .initial)
        [⟨11,some ⟨0x5000#64,unblockable,saRestorer⟩,true⟩,⟨9,some ⟨0x5000#64,0#64,0#32⟩,false⟩,
          ⟨11,none,true⟩]).1 =
      [(0,some ⟨0x4000#64,0#64,saSiginfo ||| saRestart⟩),(-22,none),
        (0,some ⟨0x5000#64,0#64,saSiginfo ||| saRestart⟩)] :=
  (sigactions_refine simulates_initial _).2.1.trans (by decide)

end Installation

end WinterLily.Signals
