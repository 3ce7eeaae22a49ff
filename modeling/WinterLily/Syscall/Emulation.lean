import WinterLily.Base.Interception
import WinterLily.Syscall.Trampoline

/-! A guest under the runtime, from its `syscall` to the instruction behind it: the signal that
`__wl_impl_setup_process` asked the kernel for, `sa_handler_impl` and `__sa_handler_seh_impl`,
`invoke_syscall_uctx`, the handler of the call, `impl_restorer`. Over it the machine that the guest
was written for, on which a `syscall` is one step. -/
namespace WinterLily.Syscall
open WinterLily.Memory WinterLily.X86 Relation

/-- What the system calls do: a handler with its arguments and a memory may give a result and a
memory. -/
abbrev Calls := X86.Word → (Greg → X86.Word) → Mem 64 → X86.Word → Mem 64 → Prop

/-- `impl_restorer`. -/
def implRestorer : List Instr := [.op (.mov .rax (.imm 15#64)),.syscall]

/-- `sa_handler_impl` and `__sa_handler_seh_impl` as they are compiled: entered for `SIGSYS` at `s`
with a `ucontext_t`, they call `invoke_syscall_uctx` on its `uc_mcontext`, `d` bytes further down the
stack, and return. -/
structure Seh (code : Code) (invoke : X86.Word) (d : ℕ) (s t : Machine) : Prop where
  runs : Reaches code s t
  rip : t.rip = invoke
  rdi : t.reg .rdi = s.reg .rdx+40#64
  rsp : t.reg .rsp = s.reg .rsp-BitVec.ofNat 64 d
  fsBase : t.fsBase = s.fsBase
  mem : SameBut (s.reg .rsp) 0 d s.mem t.mem
  back : ∀ u, Returns d t u →
    ∃ v, Reaches code u v ∧ Returns 0 s v ∧ SameBut (s.reg .rsp) 0 d u.mem v.mem

/-- The runtime in its process. A handler that is registered does what `calls` says with at most
`stack` bytes of stack, unless the call overwrites its return address. -/
structure Runtime (β : Type*) where
  kernel : Kernel
  code : Code
  invoke : X86.Word
  handle : X86.Word
  subsysArr : X86.Word
  unsupported : X86.Word
  reg : Registry X86.Word β
  calls : Calls
  depth : ℕ
  stack : ℕ
  small : depth+stack < 2^32
  invokeLoaded : Loaded code invoke (invokeSyscallUctx handle)
  handleLoaded : Loaded code handle (handleSyscallCode subsysArr unsupported handle)
  restorerLoaded : Loaded code kernel.restorer implRestorer
  restorerNative : kernel.restorer+2#64-kernel.base < kernel.size
  seh : ∀ s : Machine, s.rip = kernel.handler → s.reg .rdi = 31#64 →
    ∃ t d, 8 ≤ d ∧ d ≤ depth ∧ Seh code invoke d s t
  implements : ∀ (t : Machine) (args : Greg → X86.Word), Passed args t →
    (∃ number, handleSyscall reg number = .jump t.rip) → (∃ r m, calls t.rip args t.mem r m) →
    (∀ r m, calls t.rip args t.mem r m → m.word (t.reg .rsp) = t.mem.word (t.reg .rsp)) →
    ∃ r m u, calls t.rip args t.mem r m ∧ kernel.Reaches code t u ∧ Returns 0 t u ∧
      u.reg .rax = r ∧ SameBut (t.reg .rsp) 0 stack m u.mem

/-- The arguments of a call where the guest has them. -/
def guestArgs (s : Machine) : Greg → X86.Word
  | .r8 => s.reg .r8
  | .r9 => s.reg .r9
  | .r10 => s.reg .r10
  | .rdi => s.reg .rdi
  | .rsi => s.reg .rsi
  | .rdx => s.reg .rdx
  | .rax => s.reg .rax

namespace Runtime

variable {β : Type*} (R : Runtime β)

/-- How far below the red zone a call may write. -/
def window : ℕ := R.kernel.room+R.depth+16+R.stack

/-- The memories are one to the guest at `s`: what is below its red zone it does not own. -/
def Volatile (s : Machine) : Mem 64 → Mem 64 → Prop := SameBut (s.reg .rsp-128#64) 0 R.window

/-- What a call does for each outcome of the dispatch. -/
def Outcome (args : Greg → X86.Word) (m : Mem 64) (r : X86.Word) (m' : Mem 64) :
    Dispatch X86.Word → Prop
  | .jump handler => R.calls handler args m r m'
  | .unsupportedKernelFunction => r = R.unsupported ∧ m' = m
  | .outOfRange => False

/-- The machine of the guest. A `syscall` does to `rcx` and `r11` what it does on any processor. -/
inductive LiliumStep : Machine → Machine → Prop
  | own {s t : Machine} (h : X86.step R.code s = some t) : LiliumStep s t
  | call {s : Machine} {m m' m'' : Mem 64} {r : X86.Word} (hi : R.code s.rip = some .syscall)
    (hm : R.Volatile s s.mem m)
    (ho : R.Outcome (guestArgs s) m r m' (handleSyscall R.reg (s.reg .rax)))
    (hm' : R.Volatile s m' m'') : LiliumStep s ((s.entered.set .rax r).setMem m'')

/-- What the runtime asks of a guest that makes a system call: it has not touched the tables or the
byte that turns the interception on, also not by having its stack near them, and the call returns and
writes nothing below the red zone. -/
structure Polite (s : Machine) : Prop where
  foreign : ¬ s.rip+1#64-R.kernel.base < R.kernel.size
  selector : s.mem R.kernel.selector = 1#8
  shown : ∀ m, R.Volatile s s.mem m → Shown R.subsysArr R.reg m
  answers : ∀ h, handleSyscall R.reg (s.reg .rax) = .jump h → ∀ m, R.Volatile s s.mem m →
    ∃ r m', R.calls h (guestArgs s) m r m'
  spares : ∀ h, handleSyscall R.reg (s.reg .rax) = .jump h → ∀ m r m', R.Volatile s s.mem m →
    R.calls h (guestArgs s) m r m' → ∀ k, 0 < k → k ≤ R.window →
      m' (s.reg .rsp-128#64-BitVec.ofNat 64 k) = m (s.reg .rsp-128#64-BitVec.ofNat 64 k)

section Call

variable {R} {s t : Machine} {d : ℕ}

lemma entered_reg {r : Reg} (hc : r ≠ .rcx) (h11 : r ≠ .r11) : s.entered.reg r = s.reg r := by
  rw [Machine.entered,goto_reg,set_reg_of_ne _ _ _ h11,set_reg_of_ne _ _ _ hc]

lemma setWord_congr {m m' : Mem 64} {x : X86.Word} (h : m x = m' x) (a v : X86.Word) :
    m.setWord a v x = m'.setWord a v x := by
  unfold Mem.setWord Mem.fill
  rw [h]

/-- The entry of `invoke_syscall_uctx` for the call at `s`, `d` bytes below the frame, and the way
back from its return once it has set the saved `rax`. -/
structure Handling (R : Runtime β) (s t : Machine) (d : ℕ) : Prop where
  rip : t.rip = R.invoke
  rdi : t.reg .rdi = R.kernel.frame (s.reg .rsp)+48#64
  rsp : t.reg .rsp = s.reg .rsp-128#64-BitVec.ofNat 64 (R.kernel.length (s.reg .rsp)+d)
  framed : Framed (R.kernel.frame (s.reg .rsp)) (R.kernel.fpstate (s.reg .rsp)) s.entered t.mem
  mem : SameBut (s.reg .rsp-128#64) 0 (R.kernel.length (s.reg .rsp)+d) s.mem t.mem
  back : ∀ v r, Returns 0 t v →
    (∀ k, 0 < k → k ≤ R.kernel.length (s.reg .rsp)+d →
      v.mem (s.reg .rsp-128#64-BitVec.ofNat 64 k) =
        t.mem.setWord (R.kernel.frame (s.reg .rsp)+152#64) r
          (s.reg .rsp-128#64-BitVec.ofNat 64 k)) →
    ∃ m, R.kernel.Reaches R.code v ((s.entered.set .rax r).setMem m) ∧
      SameBut (s.reg .rsp-128#64) (R.kernel.length (s.reg .rsp))
        (R.kernel.length (s.reg .rsp)+d) v.mem m

/-- `impl_restorer` on a frame. -/
lemma reaches_sigreturn {w c : Machine} {f p : X86.Word} (hrip : w.rip = R.kernel.restorer)
    (hrsp : w.reg .rsp = f+8#64) (hf : Framed f p c w.mem) (hfs : w.fsBase = c.fsBase) :
    R.kernel.Reaches R.code w (c.setMem w.mem) := by
  obtain ⟨hmov,hl⟩ := reaches_ops [.mov .rax (.imm 15#64)] 1 rfl hrip R.restorerLoaded
  set w₁ := (runOps [.mov .rax (.imm 15#64)] w).goto (R.kernel.restorer+BitVec.ofNat 64 1) with hw₁
  have hnative : w₁.rip+1#64-R.kernel.base < R.kernel.size := by
    have := R.restorerNative
    rwa [hw₁,goto_rip,BitVec.add_assoc]
  have hrax : w₁.reg .rax = 15#64 := by simp [hw₁]
  have hcode : R.code w₁.rip = some .syscall := hl.1
  have hstep : R.kernel.step R.code w₁ = some w₁.entered.sigreturn := by
    simp only [Kernel.step,hcode,hnative,true_or,if_true,hrax]
  have hframe : w₁.entered.reg .rsp-8#64 = f := by
    rw [entered_reg (by decide) (by decide),hw₁,goto_reg]
    simp [hrsp]
  have hsig := sigreturn_framed (s := w₁.entered) (p := p) (c := c) (by rw [hframe]; exact hf)
  rw [hsig] at hstep
  have hend : ({ c with mem := w₁.entered.mem, fsBase := w₁.entered.fsBase } : Machine) =
      c.setMem w.mem := by
    change ({ c with mem := w.mem, fsBase := w.fsBase } : Machine) = _
    rw [hfs]
    rfl
  rw [hend] at hstep
  exact hmov.kernel.trans (ReflTransGen.single hstep)

/-- From a `syscall` of the guest to `invoke_syscall_uctx`. -/
lemma reaches_handling (hp : R.Polite s) (hi : R.code s.rip = some .syscall) :
    ∃ t d, d ≤ R.depth ∧ R.kernel.Reaches R.code s t ∧ Handling R s t d := by
  have hdeliver : R.kernel.step R.code s = some (R.kernel.deliver s.entered) := by
    have hsel : ¬ (1#8 : Byte) = 0#8 := by decide
    simp only [Kernel.step,hi,hp.foreign,hp.selector,hsel,or_self,if_false,if_true]
  obtain ⟨t,d,hd8,hd,hseh⟩ := R.seh (R.kernel.deliver s.entered) rfl rfl
  have hsp : s.entered.reg .rsp = s.reg .rsp := entered_reg (by decide) (by decide)
  have hsmall := R.small
  have hlt := R.kernel.length_lt (s.reg .rsp)
  have hle := R.kernel.le_length (s.reg .rsp)
  have hf := R.kernel.frame_eq (s.reg .rsp)
  have hapart := R.kernel.apart (s.reg .rsp)
  have hinside : (R.kernel.fpstate (s.reg .rsp)-R.kernel.frame (s.reg .rsp)).toNat+464 ≤
      R.kernel.length (s.reg .rsp) := R.kernel.inside _
  have hpush := R.kernel.push_same s.entered
  have hframed := R.kernel.push_framed s.entered
  have hrest := R.kernel.push_restorer s.entered
  have hdsp : (R.kernel.deliver s.entered).reg .rsp = R.kernel.frame (s.reg .rsp) := by rw [← hsp]; rfl
  have hdrdx : (R.kernel.deliver s.entered).reg .rdx = R.kernel.frame (s.reg .rsp)+8#64 := by
    rw [← hsp]
    rfl
  have hmem := hseh.mem
  rw [hdsp,hf] at hmem
  have hmem' := hmem.rebase (by omega)
  rw [hsp] at hpush hframed hrest
  change SameBut _ _ _ (R.kernel.push s.entered) _ at hmem'
  have hbyte : ∀ i < R.kernel.length (s.reg .rsp),
      R.kernel.frame (s.reg .rsp)+BitVec.ofNat 64 i =
        s.reg .rsp-128#64-BitVec.ofNat 64 (R.kernel.length (s.reg .rsp)-i) := by
    intro i hi
    rw [hf,below_add (by omega)]
  have hframed' : Framed (R.kernel.frame (s.reg .rsp)) (R.kernel.fpstate (s.reg .rsp)) s.entered
      t.mem := by
    refine hframed.congr hapart hinside fun i hi => ?_
    rw [hbyte i hi]
    exact hmem'.byte (by omega) (by omega)
  have hrsp : t.reg .rsp =
      s.reg .rsp-128#64-BitVec.ofNat 64 (R.kernel.length (s.reg .rsp)+d) := by
    rw [hseh.rsp,hdsp,hf,below_sub]
  have hrun : R.kernel.Reaches R.code s t :=
    Kernel.Reaches.trans (ReflTransGen.single hdeliver) hseh.runs.kernel
  refine ⟨t,d,hd,hrun,hseh.rip,?_,hrsp,hframed',?_,fun v r hv hfr => ?_⟩
  · rw [hseh.rdi,hdrdx,BitVec.add_assoc]
    rfl
  · exact (hpush.mono (by omega) (by omega)).trans (hmem'.mono (by omega) (by omega))
  -- The compiled functions find their part of the stack as they left it.
  have hslot : R.kernel.frame (s.reg .rsp)+152#64 =
      s.reg .rsp-128#64-BitVec.ofNat 64 (R.kernel.length (s.reg .rsp)-152) := hbyte 152 (by omega)
  have hret : Returns d t v := by
    refine ⟨hv.rip,hv.rsp,hv.saved,hv.fsBase,fun i hi => ?_⟩
    have haddr : t.reg .rsp+8#64+BitVec.ofNat 64 i =
        s.reg .rsp-128#64-BitVec.ofNat 64 (R.kernel.length (s.reg .rsp)+d-8-i) := by
      rw [hrsp,show (8#64 : X86.Word) = BitVec.ofNat 64 8 from rfl,below_add (by omega),
        below_add (by omega)]
    rw [haddr,hfr _ (by omega) (by omega),hslot]
    exact (sameBut_setWord (by omega) (by omega) r).byte (by omega) (by omega)
  obtain ⟨w,hvw,hw,hwmem⟩ := hseh.back v hret
  rw [hdsp,hf] at hwmem
  have hwmem' := hwmem.rebase (by omega)
  have hwrip : w.rip = R.kernel.restorer := by
    rw [hw.rip,hdsp]
    exact hrest
  have hwrsp : w.reg .rsp = R.kernel.frame (s.reg .rsp)+8#64 := by rw [hw.rsp,hdsp]
  have hwframed : Framed (R.kernel.frame (s.reg .rsp)) (R.kernel.fpstate (s.reg .rsp))
      (s.entered.set .rax r) w.mem := by
    refine (hframed'.set_rax hapart (by omega) r).congr hapart hinside fun i hi => ?_
    rw [hbyte i hi,hwmem'.byte (by omega) (by omega)]
    exact hfr _ (by omega) (by omega)
  have hback := reaches_sigreturn hwrip hwrsp hwframed hw.fsBase
  exact ⟨w.mem,hvw.kernel.trans hback,hwmem'.mono (by omega) (by omega)⟩

/-- A `syscall` of a guest goes through the runtime as the guest's machine has it. -/
lemma call_emulated (hp : R.Polite s) (hi : R.code s.rip = some .syscall) :
    ∃ t, R.kernel.Reaches R.code s t ∧ R.LiliumStep s t := by
  obtain ⟨t,d,hd,hst,h⟩ := reaches_handling hp hi
  have hsmall := R.small
  have hroom := R.kernel.length_le (s.reg .rsp)
  have hlt := R.kernel.length_lt (s.reg .rsp)
  have hle := R.kernel.le_length (s.reg .rsp)
  have hf := R.kernel.frame_eq (s.reg .rsp)
  have hwin : R.window = R.kernel.room+R.depth+16+R.stack := rfl
  have hroomlt := R.kernel.room_lt
  have hlow : t.reg .rsp-16#64 =
      s.reg .rsp-128#64-BitVec.ofNat 64 (R.kernel.length (s.reg .rsp)+d+16) := by
    rw [h.rsp]
    exact below_sub
  have hdist : (t.reg .rdi-(t.reg .rsp-16#64)).toNat = d+64 := by
    rw [h.rdi,hf,show (48#64 : X86.Word) = BitVec.ofNat 64 48 from rfl,below_add (by omega),hlow,
      sub_below _ (by omega),below_toNat (by omega),if_pos (by omega)]
    omega
  have hclear : Clear t := by
    unfold Clear
    rw [hdist]
    omega
  have hvol : ∀ m, (∀ x, 16 ≤ (x-(t.reg .rsp-16#64)).toNat → m x = t.mem x) →
      SameBut (s.reg .rsp-128#64) (R.kernel.length (s.reg .rsp)+d)
        (R.kernel.length (s.reg .rsp)+d+16) t.mem m := by
    intro m hm
    rw [hlow] at hm
    have := sameBut_of_off (by omega) (by omega) hm
    rwa [Nat.add_sub_cancel] at this
  have hvol' : ∀ m, (∀ x, 16 ≤ (x-(t.reg .rsp-16#64)).toNat → m x = t.mem x) →
      R.Volatile s s.mem m := fun m hm =>
    (h.mem.mono (by omega) (by omega)).trans ((hvol m hm).mono (by omega) (by omega))
  have hargs : ∀ g, greg t.mem (t.reg .rdi) g = guestArgs s g := by
    intro g
    rw [greg,h.rdi]
    cases g with
    | r8 => exact (h.framed.reg .r8).trans (entered_reg (by decide) (by decide))
    | r9 => exact (h.framed.reg .r9).trans (entered_reg (by decide) (by decide))
    | r10 => exact (h.framed.reg .r10).trans (entered_reg (by decide) (by decide))
    | rdi => exact (h.framed.reg .rdi).trans (entered_reg (by decide) (by decide))
    | rsi => exact (h.framed.reg .rsi).trans (entered_reg (by decide) (by decide))
    | rdx => exact (h.framed.reg .rdx).trans (entered_reg (by decide) (by decide))
    | rax => exact (h.framed.reg .rax).trans (entered_reg (by decide) (by decide))
  have hslot : t.reg .rdi+Greg.rax.offset = R.kernel.frame (s.reg .rsp)+152#64 := by
    rw [h.rdi,BitVec.add_assoc]
    rfl
  have hslotsame : ∀ m r, SameBut (s.reg .rsp-128#64) 0 R.window m
      (m.setWord (R.kernel.frame (s.reg .rsp)+152#64) r) := by
    intro m r
    rw [hf,show (152#64 : X86.Word) = BitVec.ofNat 64 152 from rfl,below_add (by omega)]
    exact (sameBut_setWord (by omega) (by omega) r).mono (by omega) (by omega)
  obtain ⟨t₁,htt₁,ht₁rip,ht₁⟩ := reaches_entered R.invokeLoaded h.rip hclear
  obtain ⟨u₁,htu₁,hu₁⟩ := handleSyscallCode_dispatches R.handleLoaded ht₁rip
    (hp.shown _ (hvol' _ ht₁.above))
  have hinvoked := invoked_of_dispatched R.invokeLoaded hclear ht₁ htt₁ htu₁ hu₁
  rw [ht₁.rax,hargs] at hinvoked
  change Invoked R.code R.unsupported t (handleSyscall R.reg (s.reg .rax)) at hinvoked
  cases hdisp : handleSyscall R.reg (s.reg .rax) with
  | jump handler =>
    rw [hdisp] at hinvoked
    obtain ⟨t₂,htt₂,hrip₂,hrsp₂,hpassed,habove,hleft⟩ := hinvoked
    have hargs' : greg t.mem (t.reg .rdi) = guestArgs s := funext hargs
    rw [hargs'] at hpassed
    have hvol₂ : R.Volatile s s.mem t₂.mem := hvol' _ habove
    have hspare := hp.spares handler hdisp t₂.mem
    obtain ⟨r,m',u,hcall,htu,hu,hrax,hmem⟩ := R.implements t₂ (guestArgs s) hpassed
      ⟨s.reg .rax,by rw [hdisp,hrip₂]⟩ (by rw [hrip₂]; exact hp.answers handler hdisp _ hvol₂) (by
        rw [hrip₂]
        intro r m hcall
        refine word_congr fun i hi => ?_
        rw [hrsp₂,hlow,below_add (by omega)]
        exact hspare r m hvol₂ hcall _ (by omega) (by omega))
    rw [hrip₂] at hcall
    have hkept := hspare r m' hvol₂ hcall
    rw [hrsp₂,hlow] at hmem
    have hmem' := hmem.rebase (by omega)
    have hret : Returns 16 t₂ u := by
      refine ⟨hu.rip,hu.rsp,hu.saved,hu.fsBase,fun i hi => ?_⟩
      rw [hrsp₂,hlow,show (8#64 : X86.Word) = BitVec.ofNat 64 8 from rfl,below_add (by omega),
        below_add (by omega),hmem'.byte (by omega) (by omega)]
      exact hkept _ (by omega) (by omega)
    obtain ⟨v,huv,hv,hvmem⟩ := hleft u hret
    rw [hslot,hrax] at hvmem
    obtain ⟨m'',hback,hsame⟩ := h.back v r hv (by
      intro k hk hk'
      rw [hvmem]
      refine setWord_congr ?_ _ _
      rw [hmem'.byte (by omega) (by omega),hkept k hk (by omega)]
      exact (hvol _ habove).byte (by omega) (by omega))
    refine ⟨_,((hst.trans htt₂.kernel).trans htu).trans (huv.kernel.trans hback),
      .call hi hvol₂ (by rw [hdisp]; exact hcall) ?_⟩
    have hum : SameBut (s.reg .rsp-128#64) 0 R.window m' u.mem := hmem'.mono (by omega) (by omega)
    have huvm : SameBut (s.reg .rsp-128#64) 0 R.window u.mem v.mem := by
      rw [hvmem]
      exact hslotsame _ _
    exact (hum.trans huvm).trans (hsame.mono (by omega) (by omega))
  | unsupportedKernelFunction =>
    rw [hdisp] at hinvoked
    obtain ⟨v,htv,hv,hvmem⟩ := hinvoked
    rw [hslot,hlow] at hvmem
    have hvmem' := sameBut_of_off (by omega) (by omega) hvmem
    rw [Nat.add_sub_cancel] at hvmem'
    obtain ⟨m'',hback,hsame⟩ := h.back v R.unsupported hv fun k _ hk' =>
      hvmem'.byte (by omega) (by omega)
    refine ⟨_,(hst.trans htv.kernel).trans hback,
      .call hi (m := t.mem) (h.mem.mono (by omega) (by omega)) (by rw [hdisp]; exact ⟨rfl,rfl⟩) ?_⟩
    exact ((hslotsame _ _).trans (hvmem'.mono (by omega) (by omega))).trans
      (hsame.mono (by omega) (by omega))
  | outOfRange =>
    rw [hdisp] at hinvoked
    exact absurd hinvoked id

end Call

/-- So many steps of the guest's machine. -/
def LiliumRun : ℕ → Machine → Machine → Prop
  | 0,s,t => s = t
  | n+1,s,t => ∃ u, R.LiliumStep s u ∧ LiliumRun n u t

/-- A guest that is polite on the machine it was written for runs under the runtime as on that
machine, for as many steps as one likes or to an instruction that has none. -/
theorem guest_run_emulated {s : Machine}
    (hp : ∀ t, ReflTransGen R.LiliumStep s t → R.code t.rip = some .syscall → R.Polite t) (n : ℕ) :
    ∃ k t, k ≤ n ∧ R.LiliumRun k s t ∧ R.kernel.Reaches R.code s t ∧
      (k = n ∨ R.code t.rip ≠ some .syscall ∧ X86.step R.code t = none) := by
  induction n generalizing s with
  | zero => exact ⟨0,s,le_rfl,rfl,ReflTransGen.refl,.inl rfl⟩
  | succ n ih =>
    have hnext : ∀ u, R.kernel.Reaches R.code s u → R.LiliumStep s u →
        ∃ k t, k ≤ n+1 ∧ R.LiliumRun k s t ∧ R.kernel.Reaches R.code s t ∧
          (k = n+1 ∨ R.code t.rip ≠ some .syscall ∧ X86.step R.code t = none) := by
      intro u hsu hstep
      obtain ⟨k,t,hk,hrun,hut,hend⟩ := ih fun t ht => hp t (ht.head hstep)
      exact ⟨k+1,t,by omega,⟨u,hstep,hrun⟩,hsu.trans hut,hend.imp_left fun h => by omega⟩
    by_cases hi : R.code s.rip = some .syscall
    · obtain ⟨u,hsu,hstep⟩ := call_emulated (hp s ReflTransGen.refl hi) hi
      exact hnext u hsu hstep
    cases hs : X86.step R.code s with
    | none => exact ⟨0,s,by omega,rfl,ReflTransGen.refl,.inr ⟨hi,hs⟩⟩
    | some u => exact hnext u (ReflTransGen.single (Kernel.step_of_step hs)) (.own hs)

end Runtime

section Sample

def sampleKernel : Kernel where
  base := 0#64
  size := 0x1000#64
  selector := 0x5000#64
  handler := 0x400#64
  restorer := 0x300#64
  room := 1024
  frame := fun sp => sp-1152#64
  fpstate := fun sp => sp-640#64
  other := fun _ _ => 0#8
  native := fun _ => none
  room_lt := by decide
  fits := fun sp => by
    rw [show sp-128#64-(sp-1152#64) = 1024#64 by bv_omega]
    decide
  apart := fun sp => by
    rw [show sp-640#64-(sp-1152#64) = 512#64 by bv_omega]
    decide
  inside := fun sp => by
    rw [show sp-128#64-(sp-1152#64) = 1024#64 by bv_omega,
      show sp-640#64-(sp-1152#64) = 512#64 by bv_omega]
    decide

/-- The functions of the signal handler without their tests of the signal's number. -/
def sampleSeh : List Instr := [.op (.lea .rdi (.based .rdx 40#64)),.call 0x100#64,.ret]

/-- A system call that answers 42. -/
def sampleCall : List Instr := [.op (.mov .rax (.imm 42#64)),.ret]

/-- The guest calls at `0x10000` and is done. -/
def sampleCode : Code := fun a =>
  if a < 0x200#64 then (invokeSyscallUctx 0x200#64)[(a-0x100#64).toNat]?
  else if a < 0x300#64 then (handleSyscallCode 0xA000#64 1#64 0x200#64)[(a-0x200#64).toNat]?
  else if a < 0x400#64 then implRestorer[(a-0x300#64).toNat]?
  else if a < 0x500#64 then sampleSeh[(a-0x400#64).toNat]?
  else if a = 0x10000#64 then some .syscall
  else sampleCall[(a-0x1111111111111111#64).toNat]?

lemma sampleSeh_calls (s : Machine) (hs : s.rip = 0x400#64) :
    ∃ t, Seh sampleCode 0x100#64 8 s t := by
  have hl : Loaded sampleCode 0x400#64 sampleSeh := ⟨rfl,rfl,rfl,trivial⟩
  obtain ⟨hlea,hcall⟩ := reaches_ops [.lea .rdi (.based .rdx 40#64)] 1 rfl hs hl
  have hrun := hlea.trans (reaches_call (goto_rip _ _) hcall)
  rw [goto_push,goto_goto] at hrun
  set a := runOps [.lea .rdi (.based .rdx 40#64)] s with ha
  have harsp : a.reg .rsp = s.reg .rsp := by simp [ha]
  have hamem : a.mem = s.mem := rfl
  set t := (a.push (0x400#64+BitVec.ofNat 64 1+1#64)).goto 0x100#64 with ht
  have htrsp : t.reg .rsp = s.reg .rsp-8#64 := by rw [ht,goto_reg,push_rsp,harsp]
  have htmem : SameBut (s.reg .rsp) 0 8 s.mem t.mem := by
    rw [ht,goto_mem]
    change SameBut _ 0 8 s.mem (a.mem.setWord (a.reg .rsp-8#64) _)
    rw [hamem,harsp]
    exact sameBut_setWord (k := 8) (by decide) (by decide) _
  have hret : t.mem.word (t.reg .rsp) = 0x402#64 := by
    rw [htrsp,ht,goto_mem,← harsp]
    exact push_word _ _
  refine ⟨t,hrun,rfl,by simp [ht,ha],by rw [htrsp],rfl,htmem,fun u hu => ?_⟩
  have hurip : u.rip = 0x402#64 := hu.rip.trans hret
  have hursp : u.reg .rsp = s.reg .rsp := by
    rw [hu.rsp,htrsp]
    bv_omega
  have huword : u.mem.word (s.reg .rsp) = s.mem.word (s.reg .rsp) := by
    refine word_congr fun i hi => ?_
    have hframe := hu.frame i hi
    rw [htrsp,BitVec.sub_add_cancel] at hframe
    rw [hframe]
    exact htmem _ (by
      rw [show s.reg .rsp-(s.reg .rsp+BitVec.ofNat 64 i) = -BitVec.ofNat 64 i by bv_omega]
      bv_omega)
  refine ⟨_,reaches_ret hurip (hl.drop 2),⟨?_,?_,fun r hr => ?_,?_,by simp⟩,fun _ _ => rfl⟩
  · rw [goto_rip,hursp,huword]
  · rw [goto_reg,set_reg_self,hursp]
  · have hne : r ≠ .rsp ∧ r ≠ .rdi := by
      revert r
      decide
    rw [goto_reg,set_reg_of_ne _ _ _ hne.1,hu.saved r hr,ht,goto_reg,push_reg_of_ne _ _ hne.1]
    simp [ha,hne.2]
  · rw [goto_fsBase,set_fsBase,hu.fsBase]
    rfl

lemma uniform_jump {number h : X86.Word} (hd : handleSyscall uniformRegistry number = .jump h) :
    h = 0x1111111111111111#64 := by
  simp only [handleSyscall] at hd
  split_ifs at hd
  simp only [load,uniformRegistry] at hd
  split_ifs at hd
  exact (Dispatch.jump.inj hd).symm

def sampleRuntime : Runtime Unit where
  kernel := sampleKernel
  code := sampleCode
  invoke := 0x100#64
  handle := 0x200#64
  subsysArr := 0xA000#64
  unsupported := 1#64
  reg := uniformRegistry
  calls := fun _ _ m r m' => r = 42#64 ∧ m' = m
  depth := 8
  stack := 0
  small := by decide
  invokeLoaded := ⟨rfl,rfl,rfl,rfl,rfl,rfl,rfl,rfl,rfl,rfl,rfl,rfl,rfl,trivial⟩
  handleLoaded := ⟨rfl,rfl,rfl,rfl,rfl,rfl,rfl,rfl,rfl,rfl,rfl,rfl,rfl,rfl,rfl,trivial⟩
  restorerLoaded := ⟨rfl,rfl,trivial⟩
  restorerNative := by decide
  seh := fun s hs _ => by
    obtain ⟨t,ht⟩ := sampleSeh_calls s hs
    exact ⟨t,8,le_rfl,le_rfl,ht⟩
  implements := fun t args _ hreg _ _ => by
    obtain ⟨number,hd⟩ := hreg
    have hrip := uniform_jump hd
    have hl : Loaded sampleCode 0x1111111111111111#64 sampleCall := ⟨rfl,rfl,trivial⟩
    obtain ⟨hmov,hret⟩ := reaches_ops [.mov .rax (.imm 42#64)] 1 rfl hrip hl
    refine ⟨42#64,t.mem,_,⟨rfl,rfl⟩,(hmov.trans (reaches_ret (goto_rip _ _) hret)).kernel,
      ⟨by simp,by simp,fun r hr => ?_,by simp,by simp⟩,by simp,fun _ _ => by simp⟩
    have hne : r ≠ .rsp ∧ r ≠ .rax := by
      revert r
      decide
    simp [hne.1,hne.2]

/-- A guest about to make a system call. -/
def sampleGuest : Machine where
  rip := 0x10000#64
  reg := fun
    | .rsp => 0x9000#64
    | .rax => 0x2001#64
    | _ => 7#64
  fsBase := 0#64
  zf := true
  cf := false
  fpu := fun _ => 9#8
  mem := Function.update (fun _ => 0x11#8) 0x5000#64 1#8

lemma sampleGuest_polite : sampleRuntime.Polite sampleGuest := by
  have hbytes : ∀ m, sampleRuntime.Volatile sampleGuest sampleGuest.mem m →
      ∀ x : X86.Word, 0xA000 ≤ x.toNat → m x = 0x11#8 := by
    intro m hm x hx
    have hsame : m x = sampleGuest.mem x := by
      refine hm x (.inr ?_)
      change 1048 < (0x9000#64-128#64-x).toNat
      bv_omega
    have hne : x ≠ 0x5000#64 := by
      rintro rfl
      exact absurd hx (by decide)
    rw [hsame]
    exact Function.update_of_ne hne _ (fun _ => 0x11#8)
  refine ⟨by decide,rfl,fun m hm => uniform_shown (hbytes m hm),fun _ _ m _ => ⟨42#64,m,rfl,rfl⟩,?_⟩
  rintro h hd m r m' hm ⟨-,rfl⟩ k hk hk'
  rfl

/-- The guest gets its answer and finds everything else as it was. -/
theorem guest_run_emulated_once :
    ∃ t, sampleKernel.Reaches sampleCode sampleGuest t ∧ t.rip = 0x10001#64 ∧
      t.reg .rax = 42#64 ∧ t.reg .rsp = 0x9000#64 ∧ t.fpu = sampleGuest.fpu ∧ t.zf = true := by
  have hcall : ∀ t, sampleRuntime.LiliumStep sampleGuest t →
      ∃ m, t = (sampleGuest.entered.set .rax 42#64).setMem m := by
    intro t ht
    cases ht with
    | own h => cases h
    | call hi hm ho hm' =>
      obtain ⟨rfl,-⟩ := ho
      exact ⟨_,rfl⟩
  have hdone : ∀ m t, ¬ sampleRuntime.LiliumStep
      ((sampleGuest.entered.set .rax 42#64).setMem m) t := by
    intro m t ht
    cases ht with
    | own h => cases h
    | call hi => cases hi
  have hpolite : ∀ t, ReflTransGen sampleRuntime.LiliumStep sampleGuest t →
      sampleRuntime.code t.rip = some .syscall → sampleRuntime.Polite t := by
    intro t ht hi
    rcases ht.cases_head with rfl | ⟨u,hu,hut⟩
    · exact sampleGuest_polite
    obtain ⟨m,rfl⟩ := hcall u hu
    rcases hut.cases_head with rfl | ⟨v,hv,-⟩
    · cases hi
    · exact absurd hv (hdone m v)
  obtain ⟨k,t,hk,hrun,hreach,hend⟩ := sampleRuntime.guest_run_emulated hpolite 1
  have hfirst : sampleRuntime.code sampleGuest.rip = some .syscall := rfl
  rcases hend with rfl | ⟨hno,-⟩
  · obtain ⟨u,hstep,rfl⟩ := hrun
    obtain ⟨m,rfl⟩ := hcall u hstep
    exact ⟨_,hreach,rfl,rfl,rfl,rfl,rfl⟩
  · cases k with
    | zero =>
      obtain rfl := hrun
      exact absurd hfirst hno
    | succ k =>
      obtain rfl : k = 0 := by omega
      obtain ⟨u,hstep,rfl⟩ := hrun
      obtain ⟨m,rfl⟩ := hcall u hstep
      exact ⟨_,hreach,rfl,rfl,rfl,rfl,rfl⟩

end Sample

end WinterLily.Syscall
