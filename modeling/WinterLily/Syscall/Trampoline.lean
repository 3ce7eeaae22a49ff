import WinterLily.Base.X86
import WinterLily.Syscall.Registry

/-! The way of a guest system call through the two naked functions of `wl-impl`:
`invoke_syscall_uctx` of `catch_signals.rs`, which takes number and arguments from the context the
kernel saved for `SIGSYS`, and `__handle_syscall` of `syscall_handler.rs`, which finds the handler.
Handlers are code addresses here. -/
namespace WinterLily.Syscall
open WinterLily.Memory WinterLily.X86

/-- The indices of `gregs` in `libc_defs.rs`. -/
inductive Greg
  | r8 | r9 | r10 | rdi | rsi | rdx | rax
  deriving DecidableEq, Repr

def Greg.index : Greg → ℕ
  | .r8 => 0
  | .r9 => 1
  | .r10 => 2
  | .rdi => 8
  | .rsi => 9
  | .rdx => 12
  | .rax => 13

/-- `8*{REG}`. -/
def Greg.offset (g : Greg) : X86.Word := BitVec.ofNat 64 (8*g.index)

/-- `invoke_syscall_uctx`. -/
def invokeSyscallUctx (handleSyscall : X86.Word) : List Instr :=
  [.op (.push .rbx),
   .op (.mov .rbx (.reg .rdi)),
   .op (.mov .rax (.mem (.based .rbx Greg.rax.offset))),
   .op (.mov .rdi (.mem (.based .rbx Greg.rdi.offset))),
   .op (.mov .rsi (.mem (.based .rbx Greg.rsi.offset))),
   .op (.mov .rdx (.mem (.based .rbx Greg.rdx.offset))),
   .op (.mov .rcx (.mem (.based .rbx Greg.r10.offset))),
   .op (.mov .r8 (.mem (.based .rbx Greg.r8.offset))),
   .op (.mov .r9 (.mem (.based .rbx Greg.r9.offset))),
   .call handleSyscall,
   .op (.store (.based .rbx Greg.rax.offset) .rax),
   .op (.pop .rbx),
   .ret]

/-- `__handle_syscall` at `start`; label `2:` is its fourteenth instruction. -/
def handleSyscallCode (subsysArr unsupported start : X86.Word) : List Instr :=
  [.op (.lea .r11 (.symbol subsysArr)),
   .op (.mov .r10 (.reg .rax)),
   .op (.shr .r10 12),
   .op (.and .rax (.imm 0xFFF#64)),
   .op (.cmp .r10 (.imm 64#64)),
   .jcc .ae (start+13#64),
   .op (.mov .r11 (.mem (.scaled .r11 .r10 8#64))),
   .op (.test .r11 .r11),
   .jcc .e (start+13#64),
   .op (.mov .r11 (.mem (.scaled .r11 .rax 8#64))),
   .op (.test .r11 .r11),
   .jcc .e (start+13#64),
   .jmpReg .r11,
   .op (.mov .rax (.imm unsupported)),
   .ret]

variable {β : Type*}

/-- A pointer as the memory has it. -/
def Points (p : Option X86.Word) (w : X86.Word) : Prop := w = p.getD 0#64 ∧ p ≠ some 0#64

/-- The array of tables in memory: null, or a pointer to a table of handlers. -/
def Shown (subsysArr : X86.Word) (s : Registry X86.Word β) (m : Mem 64) : Prop :=
  ∀ k : Fin 64, match s.syscallSubsysArray k with
    | none => m.word (subsysArr+8#64*BitVec.ofNat 64 k) = 0#64
    | some table => m.word (subsysArr+8#64*BitVec.ofNat 64 k) ≠ 0#64 ∧ ∀ j : Fin 4096,
        Points (table j)
          (m.word (m.word (subsysArr+8#64*BitVec.ofNat 64 k)+8#64*BitVec.ofNat 64 j))

section Handle

variable {code : Code} {subsysArr unsupported start : X86.Word} {s t : Machine}

/-- Label `2:`. -/
lemma reaches_unsupported (h : Loaded code start (handleSyscallCode subsysArr unsupported start))
    (hrip : s.rip = start+13#64) :
    ∃ t, Reaches code s t ∧ t.rip = s.mem.word (s.reg .rsp) ∧ t.reg .rsp = s.reg .rsp+8#64 ∧
      t.reg .rax = unsupported ∧ Keeps [.rax,.rsp] s t := by
  obtain ⟨h₁,hret⟩ := reaches_ops [.mov .rax (.imm unsupported)] 1 rfl hrip (h.drop 13)
  refine ⟨_,h₁.trans (reaches_ret rfl hret),by simp,by simp,
    by simp,?_⟩
  exact (((runOps_keeps rfl).goto _).set (by decide) _).goto _

/-- The decoding of the number. -/
lemma reaches_number (h : Loaded code start (handleSyscallCode subsysArr unsupported start))
    (hrip : s.rip = start) :
    ∃ t, Reaches code s t ∧
      t.rip = (if 64#64 ≤ s.reg .rax >>> 12 then start+13#64 else start+6#64) ∧
      t.reg .r10 = s.reg .rax >>> 12 ∧ t.reg .rax = s.reg .rax &&& 0xFFF#64 ∧
      t.reg .r11 = subsysArr ∧ Keeps [.rax,.r10,.r11] s t := by
  obtain ⟨h₁,hj⟩ := reaches_ops
    [.lea .r11 (.symbol subsysArr),.mov .r10 (.reg .rax),.shr .r10 12,.and .rax (.imm 0xFFF#64),
      .cmp .r10 (.imm 64#64)] 5 rfl hrip h
  refine ⟨_,h₁.trans (reaches_jcc rfl hj),?_,by simp,
    by simp,by simp,((runOps_keeps rfl).goto _).goto _⟩
  simp [BitVec.add_assoc]

/-- `mov r11, [r11+8*index]` with the null test behind it. -/
lemma reaches_load {a target : X86.Word} {index : Reg} {rest : List Instr}
    (h : Loaded code a (.op (.mov .r11 (.mem (.scaled .r11 index 8#64)))::
      .op (.test .r11 .r11)::.jcc .e target::rest)) (hrip : s.rip = a) :
    ∃ t, Reaches code s t ∧
      t.reg .r11 = s.mem.word (s.reg .r11+8#64*s.reg index) ∧
      t.rip = (if t.reg .r11 = 0#64 then target else a+3#64) ∧ Keeps [.r11] s t := by
  have hload : Loaded code a (([.mov .r11 (.mem (.scaled .r11 index 8#64)),
      .test .r11 .r11] : List Op).map .op++.jcc .e target::rest) := h
  obtain ⟨h₁,hj⟩ := reaches_ops _ 2 rfl hrip hload
  refine ⟨_,h₁.trans (reaches_jcc rfl hj),by simp,?_,
    ((runOps_keeps rfl).goto _).goto _⟩
  simp [BitVec.add_assoc]

/-- How `__handle_syscall` leaves the machine for each outcome. -/
def Dispatched (unsupported : X86.Word) (s t : Machine) : Dispatch X86.Word → Prop
  | .jump handler => t.rip = handler ∧ Keeps [.rax,.r10,.r11] s t
  | .unsupportedKernelFunction => t.rip = s.mem.word (s.reg .rsp) ∧
      t.reg .rsp = s.reg .rsp+8#64 ∧ t.reg .rax = unsupported ∧ Keeps [.rax,.r10,.r11,.rsp] s t
  | .outOfRange => False

/-- The instructions of `__handle_syscall` do what `handleSyscall` says. -/
theorem handleSyscallCode_dispatches {reg : Registry X86.Word β}
    (h : Loaded code start (handleSyscallCode subsysArr unsupported start)) (hrip : s.rip = start)
    (hs : Shown subsysArr reg s.mem) :
    ∃ t, Reaches code s t ∧ Dispatched unsupported s t (handleSyscall reg (s.reg .rax)) := by
  obtain ⟨t,hst,htrip,hr10,hrax,hr11,hkt⟩ := reaches_number h hrip
  -- All three ways to label 2 end alike.
  have hfail : ∀ u, Reaches code t u → Keeps [.rax,.r10,.r11] s u → u.rip = start+13#64 →
      ∃ v, Reaches code s v ∧ Dispatched unsupported s v .unsupportedKernelFunction := by
    intro u htu hku hu
    obtain ⟨v,huv,hv,hvsp,hvax,hkv⟩ := reaches_unsupported h hu
    rw [hku.mem,hku.reg _ (by decide)] at hv
    rw [hku.reg _ (by decide)] at hvsp
    exact ⟨v,(hst.trans htu).trans huv,hv,hvsp,hvax,
      (hku.mono (by decide)).trans (hkv.mono (by decide))⟩
  simp only [handleSyscall]
  by_cases hnum : 64#64 ≤ s.reg .rax >>> 12
  · rw [if_pos hnum] at htrip ⊢
    exact hfail t Reaches.refl hkt htrip
  rw [if_neg hnum] at htrip ⊢
  have hk : (s.reg .rax >>> 12).toNat < 64 := by
    rw [BitVec.not_le,BitVec.lt_def] at hnum
    exact hnum
  have hj : (s.reg .rax &&& 0xFFF#64).toNat < 4096 := by
    rw [BitVec.toNat_and]
    exact Nat.and_lt_two_pow (n := 12) _ (by decide)
  have hshown := hs ⟨_,hk⟩
  rw [load,dif_pos hk]
  obtain ⟨u,htu,hu11,hurip,hku⟩ := reaches_load (h.drop 6) htrip
  rw [hkt.mem,hr11,hr10] at hu11
  simp only [BitVec.ofNat_toNat,BitVec.setWidth_eq] at hshown
  have hksu : Keeps [.rax,.r10,.r11] s u := hkt.trans (hku.mono (by decide))
  rw [← hu11] at hshown
  cases htab : reg.syscallSubsysArray ⟨_,hk⟩ with
  | none =>
    rw [htab] at hshown
    rw [if_pos hshown] at hurip
    exact hfail u htu hksu hurip
  | some table =>
    rw [htab] at hshown
    obtain ⟨hne,hentries⟩ := hshown
    rw [if_neg hne] at hurip
    have hentry := hentries ⟨_,hj⟩
    simp only [BitVec.ofNat_toNat,BitVec.setWidth_eq] at hentry
    obtain ⟨v,huv,hv11,hvrip,hkv⟩ :=
      reaches_load (h.drop 9) (hurip.trans (by simp [BitVec.add_assoc]))
    rw [hksu.mem,hku.reg .rax (by decide),hrax] at hv11
    have hksv : Keeps [.rax,.r10,.r11] s v := hksu.trans (hkv.mono (by decide))
    rw [← hv11] at hentry
    change ∃ t, _ ∧ Dispatched _ _ _ (load table _ _)
    rw [load,dif_pos hj]
    cases hfun : table ⟨_,hj⟩ with
    | none =>
      rw [hfun] at hentry
      have hnull : v.reg .r11 = 0#64 := hentry.1
      rw [if_pos hnull] at hvrip
      exact hfail v (htu.trans huv) hksv hvrip
    | some handler =>
      rw [hfun] at hentry
      have hne : v.reg .r11 ≠ 0#64 := fun hc => hentry.2 (congrArg some (hentry.1.symm.trans hc))
      rw [if_neg hne] at hvrip
      have hjmp := reaches_jmpReg (hvrip.trans (by simp [BitVec.add_assoc])) (h.drop 12)
      refine ⟨_,((hst.trans htu).trans huv).trans hjmp,?_,hksv.goto _⟩
      exact hentry.1

end Handle

/-- A register of the saved context. -/
def greg (m : Mem 64) (uctx : X86.Word) (g : Greg) : X86.Word := m.word (uctx+g.offset)

/-- The arguments of a system call where the System V convention has them; the fourth one is in
`r10` when the guest executes `syscall`. -/
structure Passed (guest : Greg → X86.Word) (t : Machine) : Prop where
  rdi : t.reg .rdi = guest .rdi
  rsi : t.reg .rsi = guest .rsi
  rdx : t.reg .rdx = guest .rdx
  rcx : t.reg .rcx = guest .r10
  r8 : t.reg .r8 = guest .r8
  r9 : t.reg .r9 = guest .r9

/-- The context is clear of the two words the function pushes and of its return address. -/
def Clear (s : Machine) : Prop :=
  24 ≤ (s.reg .rdi-(s.reg .rsp-16#64)).toNat ∧
    (s.reg .rdi-(s.reg .rsp-16#64)).toNat+112 ≤ 2^64

/-- The machine at the first instruction of the callee, with `ret` to come back to. -/
structure Entered (s t : Machine) (ret : X86.Word) : Prop where
  rax : t.reg .rax = greg s.mem (s.reg .rdi) .rax
  passed : Passed (greg s.mem (s.reg .rdi)) t
  rsp : t.reg .rsp = s.reg .rsp-16#64
  rbx : t.reg .rbx = s.reg .rdi
  saved : ∀ r ∈ calleeSaved, r ≠ .rbx → t.reg r = s.reg r
  fsBase : t.fsBase = s.fsBase
  above : ∀ x, 16 ≤ (x-(s.reg .rsp-16#64)).toNat → t.mem x = s.mem x
  ret : t.mem.word (s.reg .rsp-16#64) = ret
  old : t.mem.word (s.reg .rsp-8#64) = s.reg .rbx

section Invoke

variable {code : Code} {subsysArr unsupported start hs : X86.Word} {s t u : Machine}

lemma Greg.index_le (g : Greg) : g.index ≤ 13 := by cases g <;> decide

/-- No word of the context is among those pushed. -/
lemma Clear.offset (h : Clear s) (g : Greg) :
    (s.reg .rdi+g.offset-(s.reg .rsp-16#64)).toNat =
      (s.reg .rdi-(s.reg .rsp-16#64)).toNat+8*g.index := by
  have hg := g.index_le
  rw [show s.reg .rdi+g.offset-(s.reg .rsp-16#64) = s.reg .rdi-(s.reg .rsp-16#64)+g.offset by
    bv_omega,Greg.offset]
  exact add_ofNat_toNat (by have := h.2; omega)

lemma Clear.greg_eq (h : Clear s) {m : Mem 64}
    (hm : ∀ x, 16 ≤ (x-(s.reg .rsp-16#64)).toNat → m x = s.mem x) (g : Greg) :
    greg m (s.reg .rdi) g = greg s.mem (s.reg .rdi) g := by
  have hoff := h.offset g
  have hg := g.index_le
  obtain ⟨h₁,h₂⟩ := h
  exact word_of_agree hm (by omega) (by omega)

/-- Up to the entry of `__handle_syscall`. -/
lemma reaches_entered (h : Loaded code start (invokeSyscallUctx hs)) (hrip : s.rip = start)
    (hc : Clear s) : ∃ t, Reaches code s t ∧ t.rip = hs ∧ Entered s t (start+10#64) := by
  obtain ⟨h₁,hcall⟩ := reaches_ops
    [.push .rbx,.mov .rbx (.reg .rdi),.mov .rax (.mem (.based .rbx Greg.rax.offset)),
      .mov .rdi (.mem (.based .rbx Greg.rdi.offset)),
      .mov .rsi (.mem (.based .rbx Greg.rsi.offset)),
      .mov .rdx (.mem (.based .rbx Greg.rdx.offset)),
      .mov .rcx (.mem (.based .rbx Greg.r10.offset)),
      .mov .r8 (.mem (.based .rbx Greg.r8.offset)),
      .mov .r9 (.mem (.based .rbx Greg.r9.offset))] 9 rfl hrip h
  have hpush : ∀ x, 16 ≤ (x-(s.reg .rsp-16#64)).toNat → (s.push (s.reg .rbx)).mem x = s.mem x :=
    fun x hx => push_mem_of_le (by bv_omega)
  have hg := hc.greg_eq hpush
  set b := runOps _ s with hb
  have hmem : b.mem = (s.push (s.reg .rbx)).mem := by simp [hb]
  have hrsp : b.reg .rsp = s.reg .rsp-8#64 := by simp [hb]
  have hsub : b.reg .rsp-8#64 = s.reg .rsp-16#64 := by rw [hrsp]; bv_omega
  have hsaved : ∀ r ∈ calleeSaved, r ≠ .rbx → b.reg r = s.reg r := by
    intro r hr hne
    simp only [calleeSaved,List.mem_cons,List.not_mem_nil,or_false] at hr
    rcases hr with rfl | rfl | rfl | rfl | rfl | rfl <;> simp [hb] at hne ⊢
  have harg : ∀ g, (s.push (s.reg .rbx)).mem.word (s.reg .rdi+g.offset) =
      greg s.mem (s.reg .rdi) g := hg
  have habove : ∀ x, 16 ≤ (x-(s.reg .rsp-16#64)).toNat →
      (b.push (start+10#64)).mem x = s.mem x := by
    intro x hx
    rw [push_mem_of_le (by rw [hsub]; omega),hmem]
    exact hpush x hx
  have hret : (b.push (start+10#64)).mem.word (s.reg .rsp-16#64) = start+10#64 := by
    rw [← hsub]
    exact push_word _ _
  have hold : (b.push (start+10#64)).mem.word (s.reg .rsp-8#64) = s.reg .rbx := by
    rw [word_of_agree (fun x hx => push_mem_of_le hx) (by rw [hrsp]; bv_omega)
      (by rw [hrsp]; bv_omega),hmem]
    exact push_word _ _
  have hrun := h₁.trans (reaches_call (goto_rip _ _) hcall)
  rw [goto_push,goto_goto,BitVec.add_assoc] at hrun
  refine ⟨(b.push (start+10#64)).goto hs,hrun,rfl,?_⟩
  constructor
  case passed => constructor <;> simp [hb,harg]
  case rax => simp [hb,harg]
  case rbx => simp [hb]
  case rsp => rw [goto_reg,push_rsp,hsub]
  case saved =>
    intro r hr hne
    rw [goto_reg,push_reg_of_ne _ _ (by rintro rfl; simp [calleeSaved] at hr)]
    exact hsaved r hr hne
  case fsBase => rw [goto_fsBase,push_fsBase,hb,runOps_fsBase]
  case above => exact habove
  case ret => exact hret
  case old => exact hold

/-- The function's own two words of stack stay clear of the slot it writes. -/
lemma Clear.word_setWord (h : Clear s) (m : Mem 64) (v : X86.Word) {d : X86.Word}
    (hd : d = 8#64 ∨ d = 16#64) :
    (m.setWord (s.reg .rdi+Greg.rax.offset) v).word (s.reg .rsp-16#64+d) =
      m.word (s.reg .rsp-16#64+d) := by
  have hoff := h.offset .rax
  obtain ⟨hlo,hhi⟩ := h
  simp only [Greg.index] at hoff
  generalize s.reg .rdi+Greg.rax.offset = slot at hoff ⊢
  generalize (s.reg .rdi-(s.reg .rsp-16#64)).toNat = k at hlo hhi hoff
  generalize s.reg .rsp-16#64 = base at hoff ⊢
  apply word_setWord_of_le
  · rcases hd with rfl | rfl <;> bv_omega
  · rcases hd with rfl | rfl <;> bv_omega

/-- From the return of the callee to the return of the function. -/
lemma reaches_left (h : Loaded code start (invokeSyscallUctx hs)) (hc : Clear s)
    (ht : Entered s t (start+10#64)) (hu : Returns 16 t u) :
    ∃ v, Reaches code u v ∧ Returns 0 s v ∧
      v.mem = u.mem.setWord (s.reg .rdi+Greg.rax.offset) (u.reg .rax) := by
  have hrip : u.rip = start+10#64 := by rw [hu.rip,ht.rsp,ht.ret]
  have hrsp : u.reg .rsp = s.reg .rsp-16#64+8#64 := by rw [hu.rsp,ht.rsp]
  have hrbx : u.reg .rbx = s.reg .rdi := (hu.saved .rbx (by decide)).trans ht.rbx
  have hframe : ∀ i < 16, u.mem (s.reg .rsp-16#64+8#64+BitVec.ofNat 64 i) =
      t.mem (s.reg .rsp-16#64+8#64+BitVec.ofNat 64 i) := by
    have := hu.frame
    rwa [ht.rsp] at this
  have hold : u.mem.word (s.reg .rsp-16#64+8#64) = s.reg .rbx := by
    rw [word_congr fun i hi => hframe i (by omega)]
    rw [show s.reg .rsp-16#64+8#64 = s.reg .rsp-8#64 by bv_omega]
    exact ht.old
  have hret : u.mem.word (s.reg .rsp-16#64+16#64) = s.mem.word (s.reg .rsp) := by
    have hbytes : ∀ i < 8, u.mem (s.reg .rsp-16#64+16#64+BitVec.ofNat 64 i) =
        t.mem (s.reg .rsp-16#64+16#64+BitVec.ofNat 64 i) := by
      intro i hi
      have := hframe (8+i) (by omega)
      rwa [BitVec.ofNat_add,← BitVec.add_assoc,BitVec.add_assoc _ 8#64 8#64] at this
    rw [word_congr hbytes,BitVec.sub_add_cancel]
    exact word_of_agree ht.above (by bv_omega) (by bv_omega)
  obtain ⟨h₁,hl⟩ := reaches_ops [.store (.based .rbx Greg.rax.offset) .rax,.pop .rbx] 2 rfl hrip
    (h.drop 10)
  have hrun := h₁.trans (reaches_ret (goto_rip _ _) hl)
  refine ⟨_,hrun,?_,by simp [hrbx]⟩
  have hsp : s.reg .rsp-16#64+8#64+8#64 = s.reg .rsp-16#64+16#64 := by bv_omega
  constructor
  case rip =>
    simp only [goto_rip,goto_reg,goto_mem,runOps_cons,runOps_nil,exec_store,exec_pop,ea_based,set_mem,
      setMem_mem,setMem_reg,set_reg_self,set_reg_of_ne,ne_eq,reduceCtorEq,not_false_eq_true,hrbx,
      hrsp,hsp,hc.word_setWord _ _ (.inr rfl),hret]
  case rsp =>
    simp only [goto_reg,runOps_cons,runOps_nil,exec_store,exec_pop,setMem_reg,set_reg_self,set_reg_of_ne,ne_eq,
      reduceCtorEq,not_false_eq_true,hrsp,hsp,BitVec.sub_add_cancel]
  case saved =>
    intro r hr
    by_cases hne : r = .rbx
    · subst hne
      simp [hrbx,hrsp,hc.word_setWord _ _ (.inl rfl),hold]
    · have hnr : r ≠ .rsp := by rintro rfl; simp [calleeSaved] at hr
      rw [← ht.saved r hr hne,← hu.saved r hr]
      simp [hne,hnr]
  case fsBase => simp [hu.fsBase,ht.fsBase]
  case frame => simp

/-- What a system call does for each outcome of the dispatch. The handler gets the arguments and the
guest's memory, and whatever it returns goes into the saved `rax` and nowhere else. -/
def Invoked (code : Code) (unsupported : X86.Word) (s : Machine) : Dispatch X86.Word → Prop
  | .jump handler => ∃ t, Reaches code s t ∧ t.rip = handler ∧ t.reg .rsp = s.reg .rsp-16#64 ∧
      Passed (greg s.mem (s.reg .rdi)) t ∧
      (∀ x, 16 ≤ (x-(s.reg .rsp-16#64)).toNat → t.mem x = s.mem x) ∧
      ∀ u, Returns 16 t u → ∃ v, Reaches code u v ∧ Returns 0 s v ∧
        v.mem = u.mem.setWord (s.reg .rdi+Greg.rax.offset) (u.reg .rax)
  | .unsupportedKernelFunction => ∃ v, Reaches code s v ∧ Returns 0 s v ∧
      ∀ x, 16 ≤ (x-(s.reg .rsp-16#64)).toNat →
        v.mem x = s.mem.setWord (s.reg .rdi+Greg.rax.offset) unsupported x
  | .outOfRange => False

/-- From the state that `__handle_syscall` leaves to the return of the function. -/
lemma invoked_of_dispatched {d : Dispatch X86.Word} (hi : Loaded code start (invokeSyscallUctx hs))
    (hc : Clear s) (ht : Entered s t (start+10#64)) (hst : Reaches code s t) (htu : Reaches code t u)
    (hu : Dispatched unsupported t u d) : Invoked code unsupported s d := by
  cases d with
  | jump handler =>
    obtain ⟨hurip,hk⟩ := hu
    refine ⟨u,hst.trans htu,hurip,?_,?_,?_,fun v hv => ?_⟩
    · rw [hk.reg _ (by decide),ht.rsp]
    · have hp := ht.passed
      constructor
      · rw [hk.reg _ (by decide),hp.rdi]
      · rw [hk.reg _ (by decide),hp.rsi]
      · rw [hk.reg _ (by decide),hp.rdx]
      · rw [hk.reg _ (by decide),hp.rcx]
      · rw [hk.reg _ (by decide),hp.r8]
      · rw [hk.reg _ (by decide),hp.r9]
    · rw [hk.mem]
      exact ht.above
    · exact reaches_left hi hc ht (hv.of_keeps hk (by decide) (by decide))
  | unsupportedKernelFunction =>
    obtain ⟨hurip,hursp,hurax,hk⟩ := hu
    have hret : Returns 16 t u := by
      refine ⟨hurip,hursp,fun r hr => hk.reg r ?_,hk.fsBase,fun i _ => by rw [hk.mem]⟩
      revert r
      decide
    obtain ⟨v,huv,hv,hmem⟩ := reaches_left hi hc ht hret
    refine ⟨v,(hst.trans htu).trans huv,hv,fun x hx => ?_⟩
    rw [hmem,hurax,hk.mem]
    unfold Mem.setWord Mem.fill
    rw [ht.above x hx]
  | outOfRange => exact hu

/-- A system call is dispatched by the number in the saved context, and the guest finds its registers
as they were with the result in `rax`. -/
theorem invokeSyscallUctx_invokes {reg : Registry X86.Word β}
    (hi : Loaded code start (invokeSyscallUctx hs))
    (hh : Loaded code hs (handleSyscallCode subsysArr unsupported hs)) (hrip : s.rip = start)
    (hc : Clear s) (hreg : SparesBelow (Shown subsysArr reg) (s.reg .rsp) 16 s.mem) :
    Invoked code unsupported s (handleSyscall reg (greg s.mem (s.reg .rdi) .rax)) := by
  obtain ⟨t,hst,htrip,ht⟩ := reaches_entered hi hrip hc
  obtain ⟨u,htu,hu⟩ := handleSyscallCode_dispatches hh htrip (hreg t.mem ht.above)
  rw [ht.rax] at hu
  exact invoked_of_dispatched hi hc ht hst htu hu

end Invoke

/-- Every table has the one handler everywhere. -/
def uniformRegistry : Registry X86.Word Unit :=
  ⟨fun _ => some fun _ => some 0x1111111111111111#64,8#64,fun _ => some ()⟩

/-- Call `0x2001` in the context at `0x9000`. -/
def callMem : Mem 64 := Mem.setWord (fun _ => 0x11#8) 0x9068#64 0x2001#64

def callMachine : Machine where
  rip := 0x100#64
  reg := fun
    | .rsp => 0x8000#64
    | .rdi => 0x9000#64
    | _ => 0#64
  fsBase := 0#64
  zf := false
  cf := false
  fpu := fun _ => 0#8
  mem := callMem

def callCode : Code := fun a =>
  if a < 0x200#64 then (invokeSyscallUctx 0x200#64)[(a-0x100#64).toNat]?
  else (handleSyscallCode 0xA000#64 1#64 0x200#64)[(a-0x200#64).toNat]?

section Uniform

variable {m : Mem 64} (hm : ∀ x : X86.Word, 0xA000 ≤ x.toNat → m x = 0x11#8)
include hm

lemma uniform_word {a : X86.Word} (hlo : 0xA000 ≤ a.toNat) (hhi : a.toNat+8 ≤ 2^64) :
    m.word a = 0x1111111111111111#64 := by
  have hbytes : ∀ i < 8, m (a+BitVec.ofNat 64 i) = 0x11#8 := by
    intro i hi
    have ha : (a+BitVec.ofNat 64 i).toNat = a.toNat+i := add_ofNat_toNat (by omega)
    exact hm _ (by omega)
  have hword : m.word a = Mem.word (fun _ => 0x11#8) a := word_congr hbytes
  rw [hword,Mem.word,List.map_const']
  rfl

lemma uniform_shown : Shown 0xA000#64 uniformRegistry m := by
  intro k
  have hk : m.word (0xA000#64+8#64*BitVec.ofNat 64 k) = 0x1111111111111111#64 :=
    uniform_word hm (by have := k.isLt; bv_omega) (by have := k.isLt; bv_omega)
  refine ⟨by rw [hk]; decide,fun j => ⟨?_,by simp⟩⟩
  rw [hk]
  exact uniform_word hm (by have := j.isLt; bv_omega) (by have := j.isLt; bv_omega)

end Uniform

theorem invokeSyscallUctx_invokes_call :
    Invoked callCode 1#64 callMachine (.jump 0x1111111111111111#64) := by
  have hi : Loaded callCode 0x100#64 (invokeSyscallUctx 0x200#64) :=
    ⟨rfl,rfl,rfl,rfl,rfl,rfl,rfl,rfl,rfl,rfl,rfl,rfl,rfl,trivial⟩
  have hh : Loaded callCode 0x200#64 (handleSyscallCode 0xA000#64 1#64 0x200#64) :=
    ⟨rfl,rfl,rfl,rfl,rfl,rfl,rfl,rfl,rfl,rfl,rfl,rfl,rfl,rfl,rfl,trivial⟩
  have hnum : greg callMem 0x9000#64 .rax = 0x2001#64 := word_setWord (by decide) _ _ _
  have hshown : SparesBelow (Shown 0xA000#64 uniformRegistry) 0x8000#64 16 callMem := by
    refine fun m hm => uniform_shown fun x hx => ?_
    rw [hm x (by bv_omega)]
    exact if_neg (by bv_omega)
  have := invokeSyscallUctx_invokes (s := callMachine) hi hh rfl ⟨by decide,by decide⟩ hshown
  rw [show greg callMachine.mem (callMachine.reg .rdi) .rax = 0x2001#64 from hnum] at this
  exact this

end WinterLily.Syscall
