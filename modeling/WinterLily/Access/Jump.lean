import WinterLily.Base.X86

/-! `__setjmp` and `longjmp` of `libc_defs.rs`, by which a fault in a checked access gets back to the
access. The buffer has eight words: the registers a call gives back, the stack pointer behind the
return address, and the return address. -/
namespace WinterLily.Access
open WinterLily.Memory WinterLily.X86

/-- `__setjmp`. -/
def setjmpCode : List Instr :=
  [.op (.mov .rax (.imm 0#64)),
   .op (.store (.based .rdi 0#64) .rbx),
   .op (.store (.based .rdi 8#64) .rbp),
   .op (.store (.based .rdi 16#64) .r12),
   .op (.store (.based .rdi 24#64) .r13),
   .op (.store (.based .rdi 32#64) .r14),
   .op (.store (.based .rdi 40#64) .r15),
   .op (.pop .rsi),
   .op (.store (.based .rdi 48#64) .rsp),
   .op (.store (.based .rdi 56#64) .rsi),
   .jmpReg .rsi]

/-- `longjmp`. The test is of all 64 bits of the register that holds the `i32`. -/
def longjmpCode : List Instr :=
  [.op (.mov .rax (.imm 1#64)),
   .op (.test .rsi .rsi),
   .op (.cmovne .rax .rsi),
   .op (.mov .rbx (.mem (.based .rdi 0#64))),
   .op (.mov .rbp (.mem (.based .rdi 8#64))),
   .op (.mov .r12 (.mem (.based .rdi 16#64))),
   .op (.mov .r13 (.mem (.based .rdi 24#64))),
   .op (.mov .r14 (.mem (.based .rdi 32#64))),
   .op (.mov .r15 (.mem (.based .rdi 40#64))),
   .op (.mov .rsp (.mem (.based .rdi 48#64))),
   .op (.mov .rdi (.mem (.based .rdi 56#64))),
   .jmpReg .rdi]

/-- The words `__setjmp` leaves in the buffer. -/
def jmpBuf (s : Machine) : List X86.Word :=
  [s.reg .rbx,s.reg .rbp,s.reg .r12,s.reg .r13,s.reg .r14,s.reg .r15,s.reg .rsp+8#64,
    s.mem.word (s.reg .rsp)]

/-- The buffer does not cover the return address. -/
def BufferClear (s : Machine) : Prop :=
  64 ≤ (s.reg .rsp-s.reg .rdi).toNat ∧ (s.reg .rsp-s.reg .rdi).toNat+8 ≤ 2^64

section

variable {code : Code} {sj lj : X86.Word} {s t u : Machine}

/-- `__setjmp` returns as a function does, with 0 and the buffer filled. -/
lemma reaches_setjmp (h : Loaded code sj setjmpCode) (hrip : s.rip = sj) (hc : BufferClear s) :
    ∃ t, Reaches code s t ∧ t.rip = s.mem.word (s.reg .rsp) ∧ t.reg .rax = 0#64 ∧
      t.reg .rsp = s.reg .rsp+8#64 ∧ (∀ r ∈ calleeSaved, t.reg r = s.reg r) ∧
      t.fsBase = s.fsBase ∧ t.mem = setWords s.mem (s.reg .rdi) (jmpBuf s) := by
  obtain ⟨h₁,hj⟩ := reaches_ops
    [.mov .rax (.imm 0#64),.store (.based .rdi 0#64) .rbx,.store (.based .rdi 8#64) .rbp,
      .store (.based .rdi 16#64) .r12,.store (.based .rdi 24#64) .r13,
      .store (.based .rdi 32#64) .r14,.store (.based .rdi 40#64) .r15,.pop .rsi,
      .store (.based .rdi 48#64) .rsp,.store (.based .rdi 56#64) .rsi] 10 rfl hrip h
  have hret : (setWords s.mem (s.reg .rdi)
      [s.reg .rbx,s.reg .rbp,s.reg .r12,s.reg .r13,s.reg .r14,s.reg .r15]).word (s.reg .rsp) =
        s.mem.word (s.reg .rsp) := by
    obtain ⟨hlo,hhi⟩ := hc
    exact word_of_agree (n := 48) (fun x hx => setWords_of_le hx) (by omega) hhi
  have hrun := h₁.trans (reaches_jmpReg (goto_rip _ _) hj)
  simp only [setWords,BitVec.add_assoc,BitVec.reduceAdd] at hret
  refine ⟨_,hrun,?_,?_,?_,fun r hr => ?_,?_,?_⟩
  · simp [hret]
  · simp
  · simp
  · simp only [calleeSaved,List.mem_cons,List.not_mem_nil,or_false] at hr
    rcases hr with rfl | rfl | rfl | rfl | rfl | rfl <;> simp
  · simp
  · simp [hret,jmpBuf,setWords,BitVec.add_assoc]

/-- `longjmp` gets everything but the result from the buffer. -/
lemma reaches_longjmp (h : Loaded code lj longjmpCode) (hrip : u.rip = lj)
    (hbuf : WordsAt u.mem (u.reg .rdi) (jmpBuf s)) :
    ∃ v, Reaches code u v ∧ v.rip = s.mem.word (s.reg .rsp) ∧ v.reg .rsp = s.reg .rsp+8#64 ∧
      (∀ r ∈ calleeSaved, v.reg r = s.reg r) ∧ v.mem = u.mem ∧
      v.reg .rax = if u.reg .rsi = 0#64 then 1#64 else u.reg .rsi := by
  obtain ⟨h₁,hj⟩ := reaches_ops
    [.mov .rax (.imm 1#64),.test .rsi .rsi,.cmovne .rax .rsi,
      .mov .rbx (.mem (.based .rdi 0#64)),.mov .rbp (.mem (.based .rdi 8#64)),
      .mov .r12 (.mem (.based .rdi 16#64)),.mov .r13 (.mem (.based .rdi 24#64)),
      .mov .r14 (.mem (.based .rdi 32#64)),.mov .r15 (.mem (.based .rdi 40#64)),
      .mov .rsp (.mem (.based .rdi 48#64)),.mov .rdi (.mem (.based .rdi 56#64))] 11 rfl hrip h
  have hrun := h₁.trans (reaches_jmpReg (goto_rip _ _) hj)
  simp only [jmpBuf,WordsAt,BitVec.add_assoc,BitVec.reduceAdd] at hbuf
  obtain ⟨hbx,hbp,h12,h13,h14,h15,hsp,hip,-⟩ := hbuf
  refine ⟨_,hrun,?_,?_,fun r hr => ?_,?_,?_⟩
  · simp [hip]
  · simp [hsp]
  · simp only [calleeSaved,List.mem_cons,List.not_mem_nil,or_false] at hr
    rcases hr with rfl | rfl | rfl | rfl | rfl | rfl <;>
      simp [hbx,hbp,h12,h13,h14,h15]
  · simp
  · simp

/-- What comes back as a C `int` is 0 only if the status was 0 as an `i32` and not as a register. -/
lemma status_low_eq_zero_iff (w : X86.Word) :
    (if w = 0#64 then 1#64 else w).setWidth 32 = 0#32 ↔ w ≠ 0#64 ∧ w.setWidth 32 = 0#32 := by
  by_cases hw : w = 0#64
  · subst hw
    decide
  · rw [if_neg hw]
    exact ⟨fun h => ⟨hw,h⟩,fun h => h.2⟩

/-- A `longjmp` with a buffer that is still as `__setjmp` left it returns a second time from the same
call, on the same stack and with the same registers, and with a result that a C `int` shows as nonzero
unless the caller left something in the upper half of the status register. -/
theorem longjmp_returns_from_setjmp (hs : Loaded code sj setjmpCode)
    (hl : Loaded code lj longjmpCode) (hrip : s.rip = sj) (hc : BufferClear s) :
    ∃ t, Reaches code s t ∧ Returns 0 s t ∧ t.reg .rax = 0#64 ∧
      (∀ x, 64 ≤ (x-s.reg .rdi).toNat → t.mem x = s.mem x) ∧
      ∀ u, u.rip = lj → u.reg .rdi = s.reg .rdi →
        (∀ i < 64, u.mem (s.reg .rdi+BitVec.ofNat 64 i) = t.mem (s.reg .rdi+BitVec.ofNat 64 i)) →
        ∃ v, Reaches code u v ∧ v.rip = t.rip ∧ v.reg .rsp = t.reg .rsp ∧
          (∀ r ∈ calleeSaved, v.reg r = t.reg r) ∧ v.mem = u.mem ∧
          (v.reg .rax = if u.reg .rsi = 0#64 then 1#64 else u.reg .rsi) ∧
          ((v.reg .rax).setWidth 32 = 0#32 ↔
            u.reg .rsi ≠ 0#64 ∧ (u.reg .rsi).setWidth 32 = 0#32) := by
  obtain ⟨t,hst,htrip,htax,htsp,htsaved,htfs,htmem⟩ := reaches_setjmp hs hrip hc
  refine ⟨t,hst,⟨htrip,htsp,htsaved,htfs,by simp⟩,htax,fun x hx => ?_,fun u hu hdi hkeep => ?_⟩
  · rw [htmem]
    exact setWords_of_le hx
  · have hwords : WordsAt t.mem (s.reg .rdi) (jmpBuf s) := by
      rw [htmem]
      exact wordsAt_setWords (by simp [jmpBuf])
    have hbuf : WordsAt u.mem (u.reg .rdi) (jmpBuf s) := by
      rw [hdi]
      exact hwords.congr hkeep
    obtain ⟨v,huv,hvrip,hvsp,hvsaved,hvmem,hvax⟩ := reaches_longjmp hl hu hbuf
    refine ⟨v,huv,hvrip.trans htrip.symm,hvsp.trans htsp.symm,fun r hr => ?_,hvmem,hvax,?_⟩
    · rw [hvsaved r hr,htsaved r hr]
    · rw [hvax]
      exact status_low_eq_zero_iff _

end

def jumpCode : Code := fun a =>
  if a < 0x200#64 then setjmpCode[(a-0x100#64).toNat]? else longjmpCode[(a-0x200#64).toNat]?

/-- A call of `__setjmp` with its buffer below the return address. -/
def jumpMachine : Machine where
  rip := 0x100#64
  reg := fun
    | .rsp => 0x8000#64
    | .rdi => 0x7000#64
    | _ => 0#64
  fsBase := 0#64
  zf := false
  cf := false
  fpu := fun _ => 0#8
  mem := fun _ => 0x11#8

theorem longjmp_returns_from_setjmp_jump :
    ∃ t, Reaches jumpCode jumpMachine t ∧ Returns 0 jumpMachine t ∧ t.reg .rax = 0#64 := by
  have hs : Loaded jumpCode 0x100#64 setjmpCode :=
    ⟨rfl,rfl,rfl,rfl,rfl,rfl,rfl,rfl,rfl,rfl,rfl,trivial⟩
  have hl : Loaded jumpCode 0x200#64 longjmpCode :=
    ⟨rfl,rfl,rfl,rfl,rfl,rfl,rfl,rfl,rfl,rfl,rfl,rfl,trivial⟩
  obtain ⟨t,hrun,hret,hax,-⟩ := longjmp_returns_from_setjmp (s := jumpMachine) hs hl rfl
    ⟨by decide,by decide⟩
  exact ⟨t,hrun,hret,hax⟩

end WinterLily.Access
