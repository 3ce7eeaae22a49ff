import WinterLily.Access.Checked
import WinterLily.Base.Transition

/-! How a process of the runtime ends on a signal: the handler of `catch_signals.rs` and
`exit_unrecoverably` of `helpers.rs` in a thread to which signals keep arriving. Between two
instructions of its own the thread takes every pending signal that it does not block. A process that
was stopped goes on when `SIGCONT` arrives. Faults of the handler itself are left out. -/
namespace WinterLily.Signals
open WinterLily.Transition

/-- Where a handler is: at the start of `__sa_handler_seh_impl`, in the emulated system call, or at one
of the system calls of `exit_unrecoverably`. -/
inductive Pc
  | seh
  | emulate
  | getpid
  | resetQuit
  | killQuit
  | killKill
  deriving DecidableEq, Repr

/-- A handler that has not returned, with the mask to go back to. -/
structure Frame where
  sig : ℕ
  mask : ℕ → Bool
  pc : Pc

structure Process where
  actions : Actions
  blocked : ℕ → Bool
  pending : ℕ → Bool
  stopped : Bool
  frames : List Frame
  dead : Option ℕ

inductive Event
  | arrive (n : ℕ)
  | deliver (n : ℕ)
  | exec
  deriving DecidableEq

inductive Default
  | terminate
  | ignore
  | stop
  deriving DecidableEq

/-- The default action of each signal. -/
def defaultAction (n : ℕ) : Default :=
  if n = 17 ∨ n = 18 ∨ n = 23 ∨ n = 28 then .ignore
  else if n = 19 ∨ n = 20 ∨ n = 21 ∨ n = 22 then .stop
  else .terminate

/-- `SIGCONT` takes back the pending signals that stop, and these take back a pending `SIGCONT`. -/
def takesBack (n m : ℕ) : Bool :=
  n == sigcont && defaultAction m == .stop || defaultAction n == .stop && m == sigcont

def saNodefer : Word := 0x40000000#64

namespace Process

/-- The signal is taken before the thread goes on. -/
def deliverable (s : Process) (n : ℕ) : Bool :=
  s.pending n && (n == sigkill || n == sigstop || !s.blocked n)

/-- Nothing is left to take. -/
def clear (s : Process) : Bool := (List.range 65).all fun n => !s.deliverable n

/-- The mask while the handler for `n` runs. -/
def handlerMask (s : Process) (n m : ℕ) : Bool :=
  s.blocked m || (m == n && (s.actions n).flags &&& saNodefer == 0#64) ||
    (s.actions n).mask.getLsbD (m-1)

/-- A signal is taken; a stopped process takes `SIGKILL` only. -/
def deliver (s : Process) (n : ℕ) : Option Process :=
  if s.deliverable n && (!s.stopped || n == sigkill) then
    let s := { s with pending := Function.update s.pending n false }
    if n = sigkill then some { s with dead := some n }
    else if n = sigstop then some { s with stopped := true }
    else if (s.actions n).handler = 0#64 then
      match defaultAction n with
      | .terminate => some { s with dead := some n }
      | .ignore => some s
      | .stop => some { s with stopped := true }
    else if (s.actions n).handler = 1#64 then some s
    else some { s with blocked := s.handlerMask n, frames := ⟨n,s.blocked,.seh⟩::s.frames }
  else none

/-- `rt_sigreturn` from the innermost handler. -/
def sigreturn (s : Process) (f : Frame) (fs : List Frame) : Process :=
  { s with blocked := f.mask, frames := fs }

def goto (s : Process) (f : Frame) (fs : List Frame) (pc : Pc) : Process :=
  { s with frames := { f with pc := pc }::fs }

def raise (s : Process) (n : ℕ) : Process := { s with pending := Function.update s.pending n true }

/-- A signal is sent to the process from outside. -/
def arrive (s : Process) (n : ℕ) : Process :=
  { s with
    pending := fun m => m == n || s.pending m && !takesBack n m
    stopped := s.stopped && n != sigcont }

/-- `SIG_DFL` for `SIGQUIT`, with no flags. -/
def resetQuit (s : Process) : Process :=
  { s with actions := Function.update s.actions sigquit ⟨0#64,0#64,0#64,0#64⟩ }

/-- One instruction of the innermost handler. -/
def exec (s : Process) : Option Process :=
  if s.clear then
    match s.frames with
    | [] => none
    | f::fs =>
      match f.pc with
      | .seh =>
        if f.sig = sigsys then some (s.goto f fs .emulate)
        else if f.sig = sigchld then some (s.sigreturn f fs)
        else some (s.goto f fs .getpid)
      | .emulate => some (s.sigreturn f fs)
      | .getpid => some (s.goto f fs .resetQuit)
      | .resetQuit => some (s.resetQuit.goto f fs .killQuit)
      | .killQuit => some ((s.raise sigquit).goto f fs .killKill)
      | .killKill => some (s.raise sigkill)
  else none

def step (s : Process) (e : Event) : Option Process :=
  if s.dead = none then
    match e with
    | .arrive n => if 1 ≤ n ∧ n ≤ 64 then some (s.arrive n) else none
    | .deliver n => s.deliver n
    | .exec => if s.stopped then none else s.exec
  else none

/-- The process once `__install_sa_handler` has run. -/
def started (implRestorer saHandlerImpl : Word) : Process where
  actions := installSaHandler implRestorer saHandlerImpl .initial
  blocked := fun _ => false
  pending := fun _ => false
  stopped := false
  frames := []
  dead := none

end Process

/-- A handler that does not return. -/
def Frame.Fatal (f : Frame) : Prop := f.sig ≠ sigsys ∧ f.sig ≠ sigchld

/-- Some handler that does not return is running. -/
def Process.Doomed (s : Process) : Prop := ∃ f ∈ s.frames, f.Fatal

/-- The masks to go back to are what the outer handlers block. -/
def Masks : List Frame → (ℕ → Bool) → Prop
  | [],b => ∀ n, b n = false
  | f::fs,b => (∀ n, b n = (f.mask n || n == f.sig)) ∧ Masks fs f.mask

/-- What a place in the handler says about the signal and about what was done before. -/
def Frame.Ok (s : Process) (f : Frame) : Prop :=
  match f.pc with
  | .seh => True
  | .emulate => f.sig = sigsys
  | .getpid | .resetQuit => f.Fatal
  | .killQuit => f.Fatal ∧ (s.actions sigquit).handler = 0#64
  | .killKill => f.Fatal ∧ (s.actions sigquit).handler = 0#64 ∧ s.pending sigquit = true

variable {implRestorer saHandlerImpl : Word}

/-- What holds of a process to which only signals with `A` are sent from outside. -/
structure Inv (implRestorer saHandlerImpl : Word) (A : ℕ → Prop) (s : Process) : Prop where
  caught : ∀ n, Caught n → n ≠ sigquit → s.actions n = installed implRestorer saHandlerImpl
  quit : s.actions sigquit = installed implRestorer saHandlerImpl ∨
    (s.actions sigquit).handler = 0#64
  other : ∀ n, ¬ Caught n → (s.actions n).handler = 0#64
  masks : Masks s.frames s.blocked
  frames : ∀ f ∈ s.frames, Caught f.sig ∧ A f.sig
  range : ∀ n, s.pending n = true → 1 ≤ n ∧ n ≤ 64
  pending : ∀ n, s.pending n = true →
    A n ∨ n = sigquit ∧ (s.actions sigquit).handler = 0#64 ∨ n = sigkill ∧ A sigquit
  ok : s.dead = none → ∀ f ∈ s.frames, f.Ok s
  reset : (s.actions sigquit).handler = 0#64 → s.Doomed
  dead : ∀ d, s.dead = some d → d = sigquit ∧ s.Doomed ∨ d = sigkill ∧ (A sigkill ∨ A sigquit) ∨
    32 ≤ d ∧ A d
  apart : ∀ d, s.dead = some d → ∀ f ∈ s.frames, d ≠ f.sig

section Steps

variable {A : ℕ → Prop} {s t : Process}

lemma masks_blocked {fs : List Frame} {b : ℕ → Bool} (h : Masks fs b) {n : ℕ} (hn : b n = true) :
    ∃ f ∈ fs, f.sig = n := by
  induction fs generalizing b with
  | nil =>
    rw [h n] at hn
    cases hn
  | cons f fs ih =>
    rw [h.1 n,Bool.or_eq_true] at hn
    rcases hn with hn | hn
    · obtain ⟨g,hg,hs⟩ := ih h.2 hn
      exact ⟨g,List.mem_cons_of_mem _ hg,hs⟩
    · exact ⟨f,List.mem_cons_self,(beq_iff_eq.mp hn).symm⟩

lemma blocked_of_mem {fs : List Frame} {b : ℕ → Bool} (h : Masks fs b) {f : Frame} (hf : f ∈ fs) :
    b f.sig = true := by
  induction fs generalizing b with
  | nil => cases hf
  | cons g fs ih =>
    rw [h.1 f.sig,Bool.or_eq_true]
    rcases List.mem_cons.mp hf with rfl | hf
    · exact .inr (beq_self_eq_true _)
    · exact .inl (ih h.2 hf)

lemma handler_ne_zero (hh : 2 ≤ saHandlerImpl.toNat) :
    (installed implRestorer saHandlerImpl).handler ≠ 0#64 := by
  change saHandlerImpl ≠ 0#64
  rintro rfl
  simp at hh

lemma inv_started (hh : 2 ≤ saHandlerImpl.toNat) :
    Inv implRestorer saHandlerImpl A (.started implRestorer saHandlerImpl) := by
  have happ : ∀ n, installSaHandler implRestorer saHandlerImpl .initial n =
      if Caught n then installed implRestorer saHandlerImpl else Actions.initial n :=
    installSaHandler_apply .initial
  have hquit : installSaHandler implRestorer saHandlerImpl .initial sigquit =
      installed implRestorer saHandlerImpl := (happ sigquit).trans (if_pos (by decide))
  refine ⟨fun n hn _ => ?_,.inl hquit,fun n hn => ?_,fun _ => rfl,by simp [Process.started],
    by simp [Process.started],by simp [Process.started],by simp [Process.started],fun h0 => ?_,
    by simp [Process.started],by simp [Process.started]⟩
  · exact (happ n).trans (if_pos hn)
  · exact congrArg KernelSigaction.handler ((happ n).trans (if_neg hn))
  · change (installSaHandler implRestorer saHandlerImpl .initial sigquit).handler = 0#64 at h0
    rw [hquit] at h0
    exact absurd h0 (handler_ne_zero hh)

/-- The signals that can be pending are caught, or kill, or stop, or have the default action. -/
lemma Inv.action_cases (h : Inv implRestorer saHandlerImpl A s) {n : ℕ} (hp : s.pending n = true)
    (hk : n ≠ sigkill) (hstop : n ≠ sigstop) :
    Caught n ∧ s.actions n = installed implRestorer saHandlerImpl ∨
      (s.actions n).handler = 0#64 ∧ (n = sigquit ∨ 32 ≤ n) := by
  obtain ⟨hlo,hhi⟩ := h.range n hp
  by_cases hn : Caught n
  · by_cases hq : n = sigquit
    · subst hq
      exact h.quit.imp (fun h => ⟨hn,h⟩) fun h => ⟨h,.inl rfl⟩
    · exact .inl ⟨hn,h.caught n hn hq⟩
  · refine .inr ⟨h.other n hn,.inr ?_⟩
    by_contra hlt
    exact hn ⟨hlo,by omega,hk,hstop⟩

/-- The handler runs with its own signal blocked and no other. -/
lemma installed_defers :
    ((installed implRestorer saHandlerImpl).flags &&& saNodefer == 0#64) = true := by
  change ((saRestorer ||| saSiginfo ||| saRestart).setWidth 64 &&& saNodefer == 0#64) = true
  decide

lemma installed_mask (i : ℕ) : (installed implRestorer saHandlerImpl).mask.getLsbD i = false :=
  BitVec.getLsbD_zero

lemma defaultAction_terminate {n : ℕ} (h : n = sigquit ∨ 32 ≤ n) : defaultAction n = .terminate := by
  unfold defaultAction
  rw [if_neg,if_neg]
  all_goals
    unfold sigquit at h
    omega

/-- A process that takes a signal ends, or has one more handler, or stops. -/
lemma deliver_cases (hh : 2 ≤ saHandlerImpl.toNat) (h : Inv implRestorer saHandlerImpl A s) {n : ℕ}
    (ht : s.deliver n = some t) :
    s.pending n = true ∧
      (t = { s with pending := Function.update s.pending n false, dead := some n } ∧
          (n = sigkill ∨ (s.actions n).handler = 0#64 ∧ (n = sigquit ∨ 32 ≤ n) ∧
            s.blocked n = false) ∨
        Caught n ∧ s.actions n = installed implRestorer saHandlerImpl ∧
          t = { s with
            pending := Function.update s.pending n false
            blocked := fun m => s.blocked m || m == n
            frames := ⟨n,s.blocked,.seh⟩::s.frames } ∨
        n = sigstop ∧
          t = { s with pending := Function.update s.pending n false, stopped := true }) := by
  unfold Process.deliver at ht
  by_cases hd : (s.deliverable n && (!s.stopped || n == sigkill)) = true
  swap
  · rw [if_neg hd] at ht
    cases ht
  rw [if_pos hd] at ht
  obtain ⟨hp,hopen⟩ := Bool.and_eq_true_iff.mp (Bool.and_eq_true_iff.mp hd).1
  refine ⟨hp,?_⟩
  by_cases hk : n = sigkill
  · simp only [hk,if_true] at ht
    rw [hk]
    exact .inl ⟨(Option.some.inj ht).symm,.inl rfl⟩
  by_cases hstop : n = sigstop
  · simp only [hstop,if_true] at ht
    rw [if_neg (by decide)] at ht
    rw [hstop]
    exact .inr (.inr ⟨rfl,(Option.some.inj ht).symm⟩)
  have hfree : s.blocked n = false := by simpa [hk,hstop] using hopen
  simp only [hk,hstop,if_false] at ht
  rcases h.action_cases hp hk hstop with ⟨hn,ha⟩ | ⟨ha,hn⟩
  · have h0 : (installed implRestorer saHandlerImpl).handler ≠ 0#64 := handler_ne_zero hh
    change ¬ saHandlerImpl = 0#64 at h0
    have h1 : ¬ saHandlerImpl = 1#64 := by rintro rfl; simp at hh
    simp only [ha,installed,h0,h1,if_false] at ht
    refine .inr (.inl ⟨hn,ha,(Option.some.inj ht).symm.trans ?_⟩)
    congr 1
    funext m
    simp only [Process.handlerMask,ha,installed_defers,installed_mask,Bool.and_true,Bool.or_false]
  · simp only [ha,if_true,defaultAction_terminate hn] at ht
    exact .inl ⟨(Option.some.inj ht).symm,.inr ⟨ha,hn,hfree⟩⟩

lemma exec_eq_some (ht : s.exec = some t) :
    s.clear = true ∧ ∃ f fs, s.frames = f::fs ∧
      (f.pc = .seh ∧ f.sig = sigsys ∧ t = s.goto f fs .emulate ∨
        f.pc = .seh ∧ f.sig = sigchld ∧ t = s.sigreturn f fs ∨
        f.pc = .seh ∧ f.Fatal ∧ t = s.goto f fs .getpid ∨
        f.pc = .emulate ∧ t = s.sigreturn f fs ∨
        f.pc = .getpid ∧ t = s.goto f fs .resetQuit ∨
        f.pc = .resetQuit ∧ t = s.resetQuit.goto f fs .killQuit ∨
        f.pc = .killQuit ∧ t = (s.raise sigquit).goto f fs .killKill ∨
        f.pc = .killKill ∧ t = s.raise sigkill) := by
  unfold Process.exec at ht
  by_cases hc : s.clear = true
  swap
  · rw [if_neg hc] at ht
    cases ht
  rw [if_pos hc] at ht
  refine ⟨hc,?_⟩
  cases hf : s.frames with
  | nil =>
    rw [hf] at ht
    cases ht
  | cons f fs =>
    rw [hf] at ht
    refine ⟨f,fs,rfl,?_⟩
    cases hpc : f.pc <;> simp only [hpc] at ht
    case seh =>
      by_cases hsys : f.sig = sigsys
      · rw [if_pos hsys] at ht
        exact .inl ⟨rfl,hsys,(Option.some.inj ht).symm⟩
      · rw [if_neg hsys] at ht
        by_cases hchld : f.sig = sigchld
        · rw [if_pos hchld] at ht
          exact .inr (.inl ⟨rfl,hchld,(Option.some.inj ht).symm⟩)
        · rw [if_neg hchld] at ht
          exact .inr (.inr (.inl ⟨rfl,⟨hsys,hchld⟩,(Option.some.inj ht).symm⟩))
    all_goals
      obtain rfl := Option.some.inj ht
      simp

lemma clear_iff : s.clear = true ↔ ∀ n ≤ 64, s.deliverable n = false := by
  simp [Process.clear,Nat.lt_succ_iff]

/-- Once `SIGQUIT` has its default action it keeps it, and it stays pending until it is taken. -/
lemma Frame.Ok.mono {f : Frame} (h : f.Ok s)
    (hact : (s.actions sigquit).handler = 0#64 → (t.actions sigquit).handler = 0#64)
    (hpend : (s.actions sigquit).handler = 0#64 → s.pending sigquit = true →
      t.pending sigquit = true) : f.Ok t := by
  unfold Frame.Ok at h ⊢
  cases hpc : f.pc <;> rw [hpc] at h
  case killQuit => exact ⟨h.1,hact h.2⟩
  case killKill => exact ⟨h.1,hact h.2.1,hpend h.2.1 h.2.2⟩
  all_goals exact h

lemma raise_pending (n : ℕ) {m : ℕ} (h : s.pending m = true) : (s.raise n).pending m = true := by
  by_cases hmn : m = n
  · rw [hmn]
    exact Function.update_self _ _ _
  · exact (Function.update_of_ne hmn _ _).trans h

lemma pending_of_raise {n m : ℕ} (h : (s.raise n).pending m = true) : m = n ∨ s.pending m = true := by
  by_cases hmn : m = n
  · exact .inl hmn
  · exact .inr ((Function.update_of_ne hmn _ _).symm.trans h)

lemma pending_of_arrive {n m : ℕ} (h : (s.arrive n).pending m = true) :
    m = n ∨ s.pending m = true := by
  have hor : (m == n || s.pending m && !takesBack n m) = true := h
  rw [Bool.or_eq_true,Bool.and_eq_true,beq_iff_eq] at hor
  exact hor.imp_right And.left

/-- What stops and what goes on have no part in `SIGQUIT`. -/
lemma arrive_pending_quit (n : ℕ) (h : s.pending sigquit = true) :
    (s.arrive n).pending sigquit = true := by
  have hback : takesBack n sigquit = false := by
    have hquit : defaultAction sigquit = .terminate := by decide
    have hcont : (sigquit == sigcont) = false := by decide
    rw [takesBack,hquit,hcont]
    simp
  change (sigquit == n || s.pending sigquit && !takesBack n sigquit) = true
  rw [h,hback]
  exact Bool.or_true _

lemma inv_arrive {n : ℕ} (h : Inv implRestorer saHandlerImpl A s) (hA : A n)
    (hn : 1 ≤ n ∧ n ≤ 64) : Inv implRestorer saHandlerImpl A (s.arrive n) := by
  refine ⟨h.caught,h.quit,h.other,h.masks,h.frames,fun m hm => ?_,fun m hm => ?_,fun hd f hf => ?_,
    h.reset,h.dead,h.apart⟩
  · rcases pending_of_arrive hm with rfl | hm
    · exact hn
    · exact h.range m hm
  · rcases pending_of_arrive hm with rfl | hm
    · exact .inl hA
    · exact h.pending m hm
  · exact (h.ok hd f hf).mono id fun _ => arrive_pending_quit n

/-- A pending signal is gone once it is taken. -/
lemma pending_of_taken {n m : ℕ} (h : Function.update s.pending n false m = true) :
    s.pending m = true := by
  by_cases hmn : m = n
  · rw [hmn,Function.update_self] at h
    cases h
  · exact (Function.update_of_ne hmn _ _).symm.trans h

lemma inv_deliver (hh : 2 ≤ saHandlerImpl.toNat) (h : Inv implRestorer saHandlerImpl A s) {n : ℕ}
    (hd : s.dead = none) (ht : s.deliver n = some t) : Inv implRestorer saHandlerImpl A t := by
  obtain ⟨hp,⟨rfl,hn⟩ | ⟨hn,ha,rfl⟩ | ⟨rfl,rfl⟩⟩ := deliver_cases hh h ht
  · refine ⟨h.caught,h.quit,h.other,h.masks,h.frames,fun m hm => h.range m (pending_of_taken hm),
      fun m hm => h.pending m (pending_of_taken hm),(nomatch ·),h.reset,fun d hd' => ?_,
      fun d hd' f hf => ?_⟩
    · obtain rfl := Option.some.inj hd'
      rcases hn with rfl | ⟨h0,hq | hrt,-⟩
      · rcases h.pending sigkill hp with hA | ⟨hc,-⟩ | ⟨-,hA⟩
        · exact .inr (.inl ⟨rfl,.inl hA⟩)
        · exact absurd hc (by decide)
        · exact .inr (.inl ⟨rfl,.inr hA⟩)
      · exact .inl ⟨hq,h.reset (hq ▸ h0)⟩
      · rcases h.pending n hp with hA | ⟨rfl,h0⟩ | ⟨rfl,-⟩
        · exact .inr (.inr ⟨hrt,hA⟩)
        · exact absurd hrt (by decide)
        · exact absurd hrt (by decide)
    · -- the signals of the running handlers are blocked, and `SIGKILL` has no handler
      obtain rfl := Option.some.inj hd'
      rintro rfl
      rcases hn with hk | ⟨-,-,hfree⟩
      · exact (h.frames f hf).1.2.2.1 hk
      · rw [blocked_of_mem h.masks hf] at hfree
        cases hfree
  · have hA : A n := by
      rcases h.pending n hp with hA | ⟨rfl,h0⟩ | ⟨rfl,-⟩
      · exact hA
      · rw [ha] at h0
        exact absurd h0 (handler_ne_zero hh)
      · exact absurd rfl hn.2.2.1
    refine ⟨h.caught,h.quit,h.other,⟨fun _ => rfl,h.masks⟩,fun f hf => ?_,
      fun m hm => h.range m (pending_of_taken hm),fun m hm => h.pending m (pending_of_taken hm),
      fun _ f hf => ?_,fun h0 => ?_,fun d hd' => absurd (hd.symm.trans hd') nofun,
      fun d hd' => absurd (hd.symm.trans hd') nofun⟩
    · rcases List.mem_cons.mp hf with rfl | hf
      · exact ⟨hn,hA⟩
      · exact h.frames f hf
    · rcases List.mem_cons.mp hf with rfl | hf
      · trivial
      · -- `SIGQUIT` has its default action by then, so it is not the signal that was caught
        refine (h.ok hd f hf).mono id fun h0 hq => (Function.update_of_ne ?_ _ _).trans hq
        rintro rfl
        rw [ha] at h0
        exact absurd h0 (handler_ne_zero hh)
    · obtain ⟨g,hg,hfatal⟩ := h.reset h0
      exact ⟨g,List.mem_cons_of_mem _ hg,hfatal⟩
  · exact ⟨h.caught,h.quit,h.other,h.masks,h.frames,fun m hm => h.range m (pending_of_taken hm),
      fun m hm => h.pending m (pending_of_taken hm),
      fun _ f hf => (h.ok hd f hf).mono id fun _ hq =>
        (Function.update_of_ne (show sigquit ≠ sigstop by decide) false s.pending).trans hq,
      h.reset,h.dead,h.apart⟩

lemma goto_doomed {f : Frame} {fs : List Frame} (pc : Pc) (hf : s.frames = f::fs) (hs : s.Doomed) :
    (s.goto f fs pc).Doomed := by
  obtain ⟨g,hg,hfatal⟩ := hs
  rw [hf] at hg
  rcases List.mem_cons.mp hg with rfl | hg
  · exact ⟨_,List.mem_cons_self,hfatal⟩
  · exact ⟨g,List.mem_cons_of_mem _ hg,hfatal⟩

lemma sigreturn_doomed {f : Frame} {fs : List Frame} (hf : s.frames = f::fs) (hnot : ¬ f.Fatal)
    (hs : s.Doomed) : (s.sigreturn f fs).Doomed := by
  obtain ⟨g,hg,hfatal⟩ := hs
  rw [hf] at hg
  rcases List.mem_cons.mp hg with rfl | hg
  · exact absurd hfatal hnot
  · exact ⟨g,hg,hfatal⟩

lemma inv_goto {f : Frame} {fs : List Frame} {pc : Pc} (h : Inv implRestorer saHandlerImpl A s)
    (hd : s.dead = none) (hf : s.frames = f::fs) (hok : Frame.Ok s { f with pc := pc }) :
    Inv implRestorer saHandlerImpl A (s.goto f fs pc) := by
  have hmasks := h.masks
  rw [hf] at hmasks
  have hmem : ∀ g ∈ fs, g ∈ s.frames := fun g hg => by
    rw [hf]
    exact List.mem_cons_of_mem _ hg
  refine ⟨h.caught,h.quit,h.other,hmasks,fun g hg => ?_,h.range,h.pending,fun hd g hg => ?_,
    fun h0 => goto_doomed pc hf (h.reset h0),fun d hd' => absurd (hd.symm.trans hd') nofun,
    fun d hd' => absurd (hd.symm.trans hd') nofun⟩
  · rcases List.mem_cons.mp hg with rfl | hg
    · exact h.frames f (by rw [hf]; exact List.mem_cons_self)
    · exact h.frames g (hmem g hg)
  · rcases List.mem_cons.mp hg with rfl | hg
    · exact hok.mono id fun _ => id
    · exact (h.ok hd g (hmem g hg)).mono id fun _ => id

lemma inv_sigreturn {f : Frame} {fs : List Frame} (h : Inv implRestorer saHandlerImpl A s)
    (hd : s.dead = none) (hf : s.frames = f::fs) (hnot : ¬ f.Fatal) :
    Inv implRestorer saHandlerImpl A (s.sigreturn f fs) := by
  have hmasks := h.masks
  rw [hf] at hmasks
  have hmem : ∀ g ∈ fs, g ∈ s.frames := fun g hg => by
    rw [hf]
    exact List.mem_cons_of_mem _ hg
  exact ⟨h.caught,h.quit,h.other,hmasks.2,fun g hg => h.frames g (hmem g hg),h.range,h.pending,
    fun hd g hg => (h.ok hd g (hmem g hg)).mono id fun _ => id,
    fun h0 => sigreturn_doomed hf hnot (h.reset h0),fun d hd' => absurd (hd.symm.trans hd') nofun,
    fun d hd' => absurd (hd.symm.trans hd') nofun⟩

lemma resetQuit_handler (s : Process) : (s.resetQuit.actions sigquit).handler = 0#64 := by
  simp [Process.resetQuit]

lemma raise_self (s : Process) (n : ℕ) : (s.raise n).pending n = true := by simp [Process.raise]

lemma inv_resetQuit (h : Inv implRestorer saHandlerImpl A s) (hs : s.Doomed) :
    Inv implRestorer saHandlerImpl A s.resetQuit := by
  have hquit := resetQuit_handler s
  refine ⟨fun n hn hq => (Function.update_of_ne hq _ _).trans (h.caught n hn hq),.inr hquit,
    fun n hn => ?_,h.masks,h.frames,h.range,fun n hn => ?_,
    fun hd f hf => (h.ok hd f hf).mono (fun _ => hquit) fun _ => id,fun _ => hs,h.dead,h.apart⟩
  · have hne : n ≠ sigquit := by
      rintro rfl
      exact hn (by decide)
    rw [show s.resetQuit.actions n = s.actions n from Function.update_of_ne hne _ _]
    exact h.other n hn
  · exact (h.pending n hn).imp_right (Or.imp_left fun hn => ⟨hn.1,hquit⟩)

/-- A signal the process sends to itself. -/
lemma inv_raise {n : ℕ} (h : Inv implRestorer saHandlerImpl A s)
    (hn : n = sigquit ∧ (s.actions sigquit).handler = 0#64 ∨ n = sigkill ∧ A sigquit) :
    Inv implRestorer saHandlerImpl A (s.raise n) := by
  refine ⟨h.caught,h.quit,h.other,h.masks,h.frames,fun m hm => ?_,fun m hm => ?_,
    fun hd f hf => (h.ok hd f hf).mono id fun _ => raise_pending n,h.reset,h.dead,h.apart⟩
  · rcases pending_of_raise hm with rfl | hm
    · rcases hn with ⟨rfl,-⟩ | ⟨rfl,-⟩ <;> decide
    · exact h.range m hm
  · rcases pending_of_raise hm with rfl | hm
    · exact .inr hn
    · exact h.pending m hm

/-- A handler gets as far as sending itself `SIGKILL` only when `SIGQUIT` is blocked, by a handler
that is running for it. -/
lemma Inv.quit_arrived (h : Inv implRestorer saHandlerImpl A s) (hc : s.clear = true)
    (hp : s.pending sigquit = true) : A sigquit := by
  have hnot := clear_iff.mp hc sigquit (by decide)
  have hb : s.blocked sigquit = true := by
    simpa [Process.deliverable,hp,show sigquit ≠ sigkill by decide,
      show sigquit ≠ sigstop by decide] using hnot
  obtain ⟨f,hf,hsig⟩ := masks_blocked h.masks hb
  rw [← hsig]
  exact (h.frames f hf).2

lemma inv_exec (h : Inv implRestorer saHandlerImpl A s) (hd : s.dead = none)
    (ht : s.exec = some t) : Inv implRestorer saHandlerImpl A t := by
  obtain ⟨hc,f,fs,hf,hcase⟩ := exec_eq_some ht
  have hok : f.Ok s := h.ok hd f (by rw [hf]; exact List.mem_cons_self)
  unfold Frame.Ok at hok
  rcases hcase with ⟨hpc,hsig,rfl⟩ | ⟨hpc,hsig,rfl⟩ | ⟨hpc,hfatal,rfl⟩ | ⟨hpc,rfl⟩ | ⟨hpc,rfl⟩ |
    ⟨hpc,rfl⟩ | ⟨hpc,rfl⟩ | ⟨hpc,rfl⟩ <;> rw [hpc] at hok
  · exact inv_goto h hd hf hsig
  · exact inv_sigreturn h hd hf fun hfatal => hfatal.2 hsig
  · exact inv_goto h hd hf hfatal
  · exact inv_sigreturn h hd hf fun hfatal => hfatal.1 hok
  · exact inv_goto h hd hf hok
  · have hdoom : s.Doomed := ⟨f,by rw [hf]; exact List.mem_cons_self,hok⟩
    exact inv_goto (inv_resetQuit h hdoom) hd hf ⟨hok,resetQuit_handler s⟩
  · exact inv_goto (inv_raise h (.inl ⟨rfl,hok.2⟩)) hd hf ⟨hok.1,hok.2,raise_self s _⟩
  · exact inv_raise h (.inr ⟨rfl,h.quit_arrived hc hok.2.2⟩)

lemma inv_step (hh : 2 ≤ saHandlerImpl.toNat) {e : Event} (h : Inv implRestorer saHandlerImpl A s)
    (hA : ∀ n, e = .arrive n → A n) (ht : s.step e = some t) :
    Inv implRestorer saHandlerImpl A t := by
  unfold Process.step at ht
  by_cases hd : s.dead = none
  swap
  · rw [if_neg hd] at ht
    cases ht
  rw [if_pos hd] at ht
  cases e with
  | arrive n =>
    dsimp only at ht
    by_cases hn : 1 ≤ n ∧ n ≤ 64
    · rw [if_pos hn] at ht
      obtain rfl := Option.some.inj ht
      exact inv_arrive h (hA n rfl) hn
    · rw [if_neg hn] at ht
      cases ht
  | deliver n => exact inv_deliver hh h hd ht
  | exec => exact inv_exec h hd (Option.ite_none_left_eq_some.mp ht).2

end Steps

section Progress

/-- How much a handler still has to do, with room for the signals it sends. -/
def Pc.rank : Pc → ℕ
  | .seh => 120
  | .getpid => 110
  | .resetQuit => 100
  | .killQuit => 90
  | .killKill | .emulate => 10

/-- A pending signal counts for the handler it starts, or for the end it brings. -/
def Process.weight (s : Process) (n : ℕ) : ℕ :=
  if n = sigkill then 0
  else if n = sigquit ∧ (s.actions sigquit).handler = 0#64 then 10
  else 130

def owed (w : ℕ → ℕ) (p : ℕ → Bool) : ℕ := ∑ n ∈ Finset.range 65, if p n then w n else 0

def Process.rank (s : Process) : ℕ :=
  if s.dead = none then
    1+(if s.pending sigkill then 0 else 5)+owed s.weight s.pending+
      (s.frames.map fun f => f.pc.rank).sum
  else 0

lemma owed_update (w : ℕ → ℕ) (p : ℕ → Bool) {n : ℕ} (hn : n ≤ 64) (b : Bool) :
    owed w (Function.update p n b)+(if p n then w n else 0) = owed w p+if b then w n else 0 := by
  have hmem : n ∈ Finset.range 65 := Finset.mem_range.mpr (by omega)
  have hrest : ∑ m ∈ (Finset.range 65).erase n, (if Function.update p n b m then w m else 0) =
      ∑ m ∈ (Finset.range 65).erase n, if p m then w m else 0 :=
    Finset.sum_congr rfl fun m hm => by rw [Function.update_of_ne (Finset.ne_of_mem_erase hm)]
  unfold owed
  rw [← Finset.add_sum_erase _ _ hmem,← Finset.add_sum_erase (Finset.range 65) _ hmem,hrest,
    Function.update_self]
  omega

lemma owed_mono {w w' : ℕ → ℕ} (h : ∀ n, w' n ≤ w n) (p : ℕ → Bool) : owed w' p ≤ owed w p := by
  refine Finset.sum_le_sum fun n _ => ?_
  split_ifs
  · exact h n
  · exact le_rfl

variable {A : ℕ → Prop} {s t : Process}

lemma rank_deliver (hh : 2 ≤ saHandlerImpl.toNat) (h : Inv implRestorer saHandlerImpl A s)
    (hd : s.dead = none) {n : ℕ} (ht : s.deliver n = some t) : t.rank < s.rank := by
  obtain ⟨hp,⟨rfl,-⟩ | ⟨hn,ha,rfl⟩ | ⟨rfl,rfl⟩⟩ := deliver_cases hh h ht
  · simp only [Process.rank,hd,if_true,reduceCtorEq,if_false]
    omega
  · have hk : n ≠ sigkill := hn.2.2.1
    have hw : s.weight n = 130 := by
      unfold Process.weight
      rw [if_neg hk,if_neg]
      rintro ⟨rfl,h0⟩
      rw [ha] at h0
      exact handler_ne_zero hh h0
    have howed := owed_update s.weight s.pending (h.range n hp).2 false
    rw [hp,if_pos rfl,hw] at howed
    simp only [Process.rank,hd,if_true,List.map_cons,List.sum_cons,Pc.rank,
      Function.update_of_ne hk.symm]
    change 1+_+owed s.weight (Function.update s.pending n false)+_ < _
    simp only [Bool.false_eq_true,if_false] at howed
    omega
  · have howed := owed_update s.weight s.pending (n := sigstop) (by decide) false
    have hw : s.weight sigstop = 130 := by
      rw [Process.weight,if_neg (by decide),if_neg fun hc => absurd hc.1 (by decide)]
    rw [hp,if_pos rfl,hw] at howed
    simp only [Process.rank,hd,if_true,Function.update_of_ne (show sigkill ≠ sigstop by decide)]
    change 1+_+owed s.weight (Function.update s.pending sigstop false)+_ < _
    simp only [Bool.false_eq_true,if_false] at howed
    omega

lemma rank_goto {f : Frame} {fs : List Frame} (pc : Pc) (hd : s.dead = none)
    (hf : s.frames = f::fs) : (s.goto f fs pc).rank+f.pc.rank = s.rank+pc.rank := by
  unfold Process.rank
  rw [if_pos hd,if_pos (show (s.goto f fs pc).dead = none from hd),hf]
  change 1+_+owed s.weight s.pending+(pc.rank+_)+_ = 1+_+owed s.weight s.pending+(f.pc.rank+_)+_
  rw [show (s.goto f fs pc).pending = s.pending from rfl]
  omega

lemma rank_sigreturn {f : Frame} {fs : List Frame} (hd : s.dead = none) (hf : s.frames = f::fs) :
    (s.sigreturn f fs).rank+f.pc.rank = s.rank := by
  unfold Process.rank
  rw [if_pos hd,if_pos (show (s.sigreturn f fs).dead = none from hd),hf]
  change 1+_+owed s.weight s.pending+(fs.map fun f => f.pc.rank).sum+_ =
    1+_+owed s.weight s.pending+(f.pc.rank+(fs.map fun f => f.pc.rank).sum)
  rw [show (s.sigreturn f fs).pending = s.pending from rfl]
  omega

lemma rank_resetQuit (s : Process) : s.resetQuit.rank ≤ s.rank := by
  have hw : ∀ n, s.resetQuit.weight n ≤ s.weight n := by
    intro n
    unfold Process.weight
    rw [resetQuit_handler]
    split_ifs <;> simp_all
  have := owed_mono hw s.pending
  unfold Process.rank
  by_cases hd : s.dead = none
  · rw [if_pos hd,if_pos (show s.resetQuit.dead = none from hd)]
    change 1+_+owed s.resetQuit.weight s.pending+(s.frames.map _).sum ≤ _
    rw [show s.resetQuit.pending = s.pending from rfl]
    omega
  · rw [if_neg hd,if_neg (show ¬ s.resetQuit.dead = none from hd)]

lemma rank_raise {n : ℕ} (hn : n ≤ 64) (hk : n ≠ sigkill) :
    (s.raise n).rank ≤ s.rank+s.weight n := by
  have howed := owed_update s.weight s.pending hn true
  simp only [if_true] at howed
  unfold Process.rank
  by_cases hd : s.dead = none
  · rw [if_pos hd,if_pos (show (s.raise n).dead = none from hd)]
    change 1+(if Function.update s.pending n true sigkill then 0 else 5)+
      owed s.weight (Function.update s.pending n true)+(s.frames.map _).sum ≤ _
    rw [Function.update_of_ne hk.symm]
    split_ifs at howed ⊢ <;> omega
  · rw [if_neg hd,if_neg (show ¬ (s.raise n).dead = none from hd)]
    omega

lemma rank_raise_kill (hd : s.dead = none) (hp : s.pending sigkill = false) :
    (s.raise sigkill).rank < s.rank := by
  have howed := owed_update s.weight s.pending (n := sigkill) (by decide) true
  have hw : s.weight sigkill = 0 := if_pos rfl
  rw [hp,hw] at howed
  unfold Process.rank
  rw [if_pos hd,if_pos (show (s.raise sigkill).dead = none from hd),raise_self,hp]
  change 1+_+owed s.weight (Function.update s.pending sigkill true)+(s.frames.map _).sum < _
  simp only [Bool.false_eq_true,if_false,if_true] at howed ⊢
  omega

lemma rank_exec (h : Inv implRestorer saHandlerImpl A s) (hd : s.dead = none)
    (ht : s.exec = some t) : t.rank < s.rank := by
  obtain ⟨hc,f,fs,hf,hcase⟩ := exec_eq_some ht
  have hok : f.Ok s := h.ok hd f (by rw [hf]; exact List.mem_cons_self)
  unfold Frame.Ok at hok
  rcases hcase with ⟨hpc,-,rfl⟩ | ⟨hpc,-,rfl⟩ | ⟨hpc,-,rfl⟩ | ⟨hpc,rfl⟩ | ⟨hpc,rfl⟩ | ⟨hpc,rfl⟩ |
    ⟨hpc,rfl⟩ | ⟨hpc,rfl⟩ <;> rw [hpc] at hok
  · have := rank_goto .emulate hd hf
    rw [hpc,Pc.rank,Pc.rank] at this
    omega
  · have := rank_sigreturn hd hf
    rw [hpc,Pc.rank] at this
    omega
  · have := rank_goto .getpid hd hf
    rw [hpc,Pc.rank,Pc.rank] at this
    omega
  · have := rank_sigreturn hd hf
    rw [hpc,Pc.rank] at this
    omega
  · have := rank_goto .resetQuit hd hf
    rw [hpc,Pc.rank,Pc.rank] at this
    omega
  · have hreset := rank_resetQuit s
    have := rank_goto (s := s.resetQuit) .killQuit hd hf
    rw [hpc,Pc.rank,Pc.rank] at this
    omega
  · have hraise := rank_raise (s := s) (n := sigquit) (by decide) (by decide)
    have hw : s.weight sigquit = 10 := by
      rw [Process.weight,if_neg (by decide),if_pos ⟨rfl,hok.2⟩]
    have := rank_goto (s := s.raise sigquit) .killKill hd hf
    rw [hpc,Pc.rank,Pc.rank] at this
    omega
  · have hnot := clear_iff.mp hc sigkill (by decide)
    exact rank_raise_kill hd (by simpa [Process.deliverable] using hnot)

/-- What the process does itself. -/
def Event.Own (e : Event) : Prop := ∀ n, e ≠ .arrive n

lemma rank_step (hh : 2 ≤ saHandlerImpl.toNat) (h : Inv implRestorer saHandlerImpl A s) {e : Event}
    (he : e.Own) (ht : s.step e = some t) : t.rank < s.rank := by
  unfold Process.step at ht
  by_cases hd : s.dead = none
  swap
  · rw [if_neg hd] at ht
    cases ht
  rw [if_pos hd] at ht
  cases e with
  | arrive n => exact absurd rfl (he n)
  | deliver n => exact rank_deliver hh h hd ht
  | exec => exact rank_exec h hd (Option.ite_none_left_eq_some.mp ht).2

lemma exec_doomed (h : Inv implRestorer saHandlerImpl A s) (hd : s.dead = none)
    (ht : s.exec = some t) (hs : s.Doomed) : t.Doomed := by
  obtain ⟨-,f,fs,hf,hcase⟩ := exec_eq_some ht
  have hok : f.Ok s := h.ok hd f (by rw [hf]; exact List.mem_cons_self)
  unfold Frame.Ok at hok
  rcases hcase with ⟨-,-,rfl⟩ | ⟨-,hsig,rfl⟩ | ⟨-,-,rfl⟩ | ⟨hpc,rfl⟩ | ⟨-,rfl⟩ | ⟨-,rfl⟩ | ⟨-,rfl⟩ |
    ⟨-,rfl⟩
  · exact goto_doomed _ hf hs
  · exact sigreturn_doomed hf (fun h => h.2 hsig) hs
  · exact goto_doomed _ hf hs
  · rw [hpc] at hok
    exact sigreturn_doomed hf (fun h => h.1 hok) hs
  · exact goto_doomed _ hf hs
  · exact goto_doomed (s := s.resetQuit) _ hf hs
  · exact goto_doomed (s := s.raise sigquit) _ hf hs
  · exact hs

lemma deliver_doomed (hh : 2 ≤ saHandlerImpl.toNat) (h : Inv implRestorer saHandlerImpl A s) {n : ℕ}
    (ht : s.deliver n = some t) (hs : s.Doomed) : t.Doomed := by
  obtain ⟨g,hg,hfatal⟩ := hs
  obtain ⟨-,⟨rfl,-⟩ | ⟨-,-,rfl⟩ | ⟨-,rfl⟩⟩ := deliver_cases hh h ht
  · exact ⟨g,hg,hfatal⟩
  · exact ⟨g,List.mem_cons_of_mem _ hg,hfatal⟩
  · exact ⟨g,hg,hfatal⟩

lemma step_doomed (hh : 2 ≤ saHandlerImpl.toNat) (h : Inv implRestorer saHandlerImpl A s) {e : Event}
    (ht : s.step e = some t) (hs : s.Doomed) : t.Doomed := by
  unfold Process.step at ht
  by_cases hd : s.dead = none
  swap
  · rw [if_neg hd] at ht
    cases ht
  rw [if_pos hd] at ht
  cases e with
  | arrive n =>
    dsimp only at ht
    split_ifs at ht
    obtain rfl := Option.some.inj ht
    exact hs
  | deliver n => exact deliver_doomed hh h ht hs
  | exec => exact exec_doomed h hd (Option.ite_none_left_eq_some.mp ht).2 hs

/-- A process with such a handler is never stuck unless it is stopped. -/
lemma exists_own_step (hh : 2 ≤ saHandlerImpl.toNat) (h : Inv implRestorer saHandlerImpl A s)
    (hd : s.dead = none) (hrunning : s.stopped = false) (hs : s.Doomed) :
    ∃ e t, e.Own ∧ s.step e = some t := by
  by_cases hc : s.clear = true
  · refine ⟨.exec,?_⟩
    obtain ⟨g,hg,-⟩ := hs
    cases hf : s.frames with
    | nil =>
      rw [hf] at hg
      cases hg
    | cons f fs =>
      have hex : ∃ t, s.exec = some t := by
        unfold Process.exec
        rw [if_pos hc,hf]
        cases hpc : f.pc <;> simp only [hpc]
        case seh => split_ifs <;> exact ⟨_,rfl⟩
        all_goals exact ⟨_,rfl⟩
      obtain ⟨t,ht⟩ := hex
      refine ⟨t,nofun,?_⟩
      unfold Process.step
      rw [if_pos hd]
      dsimp only
      rw [hrunning]
      exact ht
  · have hex : ∃ n ≤ 64, s.deliverable n = true := by
      by_contra hno
      refine hc (clear_iff.mpr fun n hn => ?_)
      by_contra hdel
      exact hno ⟨n,hn,by simpa using hdel⟩
    obtain ⟨n,-,hdel⟩ := hex
    have hp : s.pending n = true := (Bool.and_eq_true_iff.mp hdel).1
    have hdeliver : ∃ t, s.deliver n = some t := by
      unfold Process.deliver
      rw [if_pos (by rw [hdel,hrunning]; rfl)]
      by_cases hk : n = sigkill
      · simp only [hk,if_true]
        exact ⟨_,rfl⟩
      by_cases hstop : n = sigstop
      · simp only [hstop,if_true]
        exact ⟨_,rfl⟩
      simp only [hk,hstop,if_false]
      rcases h.action_cases hp hk hstop with ⟨-,ha⟩ | ⟨ha,hn⟩
      · split_ifs with h0
        · rw [ha] at h0
          exact absurd h0 (handler_ne_zero hh)
        · exact ⟨_,rfl⟩
        · exact ⟨_,rfl⟩
      · simp only [ha,if_true,defaultAction_terminate hn]
        exact ⟨_,rfl⟩
    obtain ⟨t,ht⟩ := hdeliver
    refine ⟨.deliver n,t,nofun,?_⟩
    unfold Process.step
    rw [if_pos hd]
    exact ht

/-- Along the steps of the process itself the rank is used up. -/
lemma own_run (hh : 2 ≤ saHandlerImpl.toNat) {es : List Event}
    (h : Inv implRestorer saHandlerImpl A s) (hs : s.Doomed) (hown : ∀ e ∈ es, e.Own)
    (hrun : run Process.step s es = some t) :
    Inv implRestorer saHandlerImpl A t ∧ t.Doomed ∧ es.length+t.rank ≤ s.rank := by
  induction es generalizing s with
  | nil =>
    cases hrun
    exact ⟨h,hs,by simp⟩
  | cons e es ih =>
    obtain ⟨u,hu,hrest⟩ := Option.bind_eq_some_iff.mp hrun
    have he : e.Own := hown e List.mem_cons_self
    have hlt := rank_step hh h he hu
    obtain ⟨hinv,hdoom,hle⟩ := ih (inv_step hh h (fun n hn => absurd hn (he n)) hu)
      (step_doomed hh h hu hs) (fun e' he' => hown e' (List.mem_cons_of_mem _ he')) hrest
    refine ⟨hinv,hdoom,?_⟩
    rw [List.length_cons]
    omega

end Progress

/-- What holds of a process after events, with the signals among them that came from outside. -/
lemma inv_of_run (hh : 2 ≤ saHandlerImpl.toNat) {es : List Event} {s : Process}
    (hrun : run Process.step (.started implRestorer saHandlerImpl) es = some s) :
    Inv implRestorer saHandlerImpl (fun n => .arrive n ∈ es) s := by
  have hguard : Guarded Process.step (fun _ e => ∀ n, e = .arrive n → .arrive n ∈ es)
      (.started implRestorer saHandlerImpl) es :=
    guarded_of_mem (fun e he _ n hn => hn ▸ he) _
  exact (always_of_guarded (P := Inv implRestorer saHandlerImpl fun n => .arrive n ∈ es)
    (fun _ _ _ hI hC ht => inv_step hh hI hC ht) (fun _ hI => hI) (inv_started hh) hguard).last hrun

/-- `SIGSEGV`, and a stop while its handler runs. `SIGCONT` has a handler too, which is fatal. -/
def segvRun : List Event :=
  [.arrive 11,.deliver 11,.exec,.arrive 19,.deliver 19,.arrive 18,.deliver 18,.exec,.exec,.exec,
    .exec,.deliver 3]

/-- A process to which one signal only is sent ends as the handler of the checked accesses does. -/
theorem dies_as_handled (hh : 2 ≤ saHandlerImpl.toNat) {es : List Event} {s : Process} {n d : ℕ}
    (hrun : run Process.step (.started implRestorer saHandlerImpl) es = some s)
    (hn : Caught n) (honly : ∀ m, .arrive m ∈ es → m = n) (hd : s.dead = some d)
    (t : Access.Thread) : Access.saHandlerSehImpl t n = .killed d := by
  have hinv := inv_of_run hh hrun
  have hfatal : n ≠ sigsys ∧ n ≠ sigchld →
      Access.saHandlerSehImpl t n = .killed (if n = sigquit then sigkill else sigquit) := by
    rintro ⟨hsys,hchld⟩
    unfold Access.saHandlerSehImpl
    rw [if_neg hsys,if_neg hchld]
    rfl
  rcases hinv.dead d hd with ⟨rfl,f,hf,hsig⟩ | ⟨rfl,hkill | hquit⟩ | ⟨hrt,hA⟩
  · obtain rfl := honly _ (hinv.frames f hf).2
    rw [hfatal hsig,if_neg (Ne.symm (hinv.apart _ hd f hf))]
  · exact absurd (honly _ hkill).symm hn.2.2.1
  · obtain rfl := honly _ hquit
    exact hfatal (by decide)
  · obtain rfl := honly _ hA
    exact absurd hn.2.1 (by omega)

end WinterLily.Signals
