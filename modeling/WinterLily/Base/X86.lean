import WinterLily.Base.Memory
import Mathlib.Logic.Relation

/-! A fragment of the x86-64 instruction set over byte memory. Every instruction takes up one code
address, and every access is to memory that is mapped. `syscall`, `ud2` and an operand of `fxsave64` or
`fxrstor64` that is not aligned leave the machine to the kernel, and an address without code leaves it
to a function that is not part of the listing. -/
namespace WinterLily.X86
open WinterLily.Memory Relation

abbrev Word := BitVec 64

inductive Reg
  | rax | rbx | rcx | rdx | rsi | rdi | rbp | rsp
  | r8 | r9 | r10 | r11 | r12 | r13 | r14 | r15
  deriving DecidableEq, Repr

/-- `fpu` is what `fxsave64` writes of the floating-point and vector registers. -/
structure Machine where
  rip : Word
  reg : Reg → Word
  fsBase : Word
  zf : Bool
  cf : Bool
  fpu : Fin 464 → Byte
  mem : Mem 64

/-- An operand in memory. A symbol stands for its address. -/
inductive Addr
  | based (base : Reg) (disp : Word)
  | scaled (base index : Reg) (scale : Word)
  | indexed (base index : Reg) (scale disp : Word)
  | symbol (a : Word)
  | fs (disp : Word)

inductive Src
  | reg (r : Reg)
  | imm (v : Word)
  | mem (a : Addr)

/-- The instructions that go on to the next one. -/
inductive Op
  | mov (dst : Reg) (src : Src)
  | mov32 (dst : Reg) (src : Src)
  | store (a : Addr) (src : Reg)
  | lea (dst : Reg) (a : Addr)
  | push (src : Reg)
  | pushSrc (src : Src)
  | pop (dst : Reg)
  | add (dst : Reg) (src : Src)
  | sub (dst : Reg) (src : Src)
  | and (dst : Reg) (src : Src)
  | xor (dst : Reg) (src : Src)
  | shr (dst : Reg) (n : ℕ)
  | shl (dst : Reg) (n : ℕ)
  | cmp (a : Reg) (b : Src)
  | cmp32 (a : Reg) (v : BitVec 32)
  | test (a b : Reg)
  | testImm (a : Reg) (v : Word)
  | test32 (a b : Reg)
  | cmovne (dst src : Reg)
  | movupsLoad (a : Addr)
  | movupsStore (a : Addr)

inductive Cond
  | e
  | ne
  | ae

inductive Instr
  | op (o : Op)
  | jcc (c : Cond) (target : Word)
  | jmp (target : Word)
  | jmpReg (r : Reg)
  | call (target : Word)
  | ret
  | fxsave (a : Addr)
  | fxrstor (a : Addr)
  | syscall
  | ud2

namespace Machine

def set (s : Machine) (r : Reg) (v : Word) : Machine :=
  { s with reg := Function.update s.reg r v }

def setMem (s : Machine) (m : Mem 64) : Machine := { s with mem := m }

def setFlags (s : Machine) (zf cf : Bool) : Machine := { s with zf := zf, cf := cf }

def setFpu (s : Machine) (f : Fin 464 → Byte) : Machine := { s with fpu := f }

def goto (s : Machine) (a : Word) : Machine := { s with rip := a }

/-- The bytes that `fxsave64` stores; it leaves the last 48 of its 512 alone. -/
def image (s : Machine) (i : ℕ) : Byte := if h : i < 464 then s.fpu ⟨i,h⟩ else 0#8

/-- The address of an operand. -/
def ea (s : Machine) : Addr → Word
  | .based base disp => s.reg base+disp
  | .scaled base index scale => s.reg base+scale*s.reg index
  | .indexed base index scale disp => s.reg base+scale*s.reg index+disp
  | .symbol a => a
  | .fs disp => s.fsBase+disp

def value (s : Machine) : Src → Word
  | .reg r => s.reg r
  | .imm v => v
  | .mem a => s.mem.word (s.ea a)

def holds (s : Machine) : Cond → Bool
  | .e => s.zf
  | .ne => !s.zf
  | .ae => !s.cf

def push (s : Machine) (v : Word) : Machine :=
  (s.setMem (s.mem.setWord (s.reg .rsp-8#64) v)).set .rsp (s.reg .rsp-8#64)

end Machine

/-- What the instruction does apart from going on to the next one. The two `movups` are those with
`xmm0`, which `fxsave64` stores from byte 160 on. -/
def Op.exec (s : Machine) : Op → Machine
  | .mov dst src => s.set dst (s.value src)
  | .mov32 dst src => s.set dst (((s.value src).setWidth 32).setWidth 64)
  | .store a src => s.setMem (s.mem.setWord (s.ea a) (s.reg src))
  | .lea dst a => s.set dst (s.ea a)
  | .push src => s.push (s.reg src)
  | .pushSrc src => s.push (s.value src)
  | .pop dst => (s.set .rsp (s.reg .rsp+8#64)).set dst (s.mem.word (s.reg .rsp))
  | .add dst src =>
    let v := s.reg dst+s.value src
    (s.set dst v).setFlags (v == 0#64) (2^64 ≤ (s.reg dst).toNat+(s.value src).toNat)
  | .sub dst src =>
    let v := s.reg dst-s.value src
    (s.set dst v).setFlags (v == 0#64) (s.reg dst < s.value src)
  | .and dst src =>
    let v := s.reg dst &&& s.value src
    (s.set dst v).setFlags (v == 0#64) false
  | .xor dst src =>
    let v := s.reg dst ^^^ s.value src
    (s.set dst v).setFlags (v == 0#64) false
  | .shr dst n =>
    let v := s.reg dst >>> n
    (s.set dst v).setFlags (v == 0#64) ((s.reg dst).getLsbD (n-1))
  | .shl dst n =>
    let v := s.reg dst <<< n
    (s.set dst v).setFlags (v == 0#64) ((s.reg dst).getLsbD (64-n))
  | .cmp a b => s.setFlags (s.reg a == s.value b) (s.reg a < s.value b)
  | .cmp32 a v => s.setFlags ((s.reg a).setWidth 32 == v) ((s.reg a).setWidth 32 < v)
  | .test a b => s.setFlags (s.reg a &&& s.reg b == 0#64) false
  | .testImm a v => s.setFlags (s.reg a &&& v == 0#64) false
  | .test32 a b =>
    s.setFlags ((s.reg a).setWidth 32 &&& (s.reg b).setWidth 32 == 0#32) false
  | .cmovne dst src => s.set dst (if s.zf then s.reg dst else s.reg src)
  | .movupsLoad a => s.setFpu fun i =>
    if 160 ≤ i.val ∧ i.val < 176 then s.mem (s.ea a+BitVec.ofNat 64 (i.val-160)) else s.fpu i
  | .movupsStore a => s.setMem (s.mem.fill (s.ea a) 16 fun i => s.image (160+i))

/-- The operand of `fxsave64` and `fxrstor64` has to be a multiple of 16. -/
def Machine.aligned (s : Machine) (a : Addr) : Bool := (s.ea a).toNat % 16 == 0

def Instr.exec (s : Machine) : Instr → Option Machine
  | .op o => some ((o.exec s).goto (s.rip+1#64))
  | .jcc c target => some (s.goto (if s.holds c then target else s.rip+1#64))
  | .jmp target => some (s.goto target)
  | .jmpReg r => some (s.goto (s.reg r))
  | .call target => some ((s.push (s.rip+1#64)).goto target)
  | .ret => some ((s.set .rsp (s.reg .rsp+8#64)).goto (s.mem.word (s.reg .rsp)))
  | .fxsave a =>
    if s.aligned a then
      some ((s.setMem (s.mem.fill (s.ea a) 464 s.image)).goto (s.rip+1#64))
    else none
  | .fxrstor a =>
    if s.aligned a then
      some ((s.setFpu fun i => s.mem (s.ea a+BitVec.ofNat 64 i)).goto (s.rip+1#64))
    else none
  | .syscall | .ud2 => none

abbrev Code := Word → Option Instr

def step (code : Code) (s : Machine) : Option Machine := (code s.rip).bind fun i => i.exec s

/-- The machine comes to `t` by the code alone. -/
def Reaches (code : Code) : Machine → Machine → Prop :=
  ReflTransGen fun s t => step code s = some t

/-- A listing stands at an address of the code. -/
def Loaded (code : Code) : Word → List Instr → Prop
  | _,[] => True
  | a,i::is => code a = some i ∧ Loaded code (a+1#64) is

def runOps (os : List Op) (s : Machine) : Machine := os.foldl (fun s o => o.exec s) s

section Fields

variable (s : Machine) (r : Reg) (v a : Word) (m : Mem 64) (zf cf : Bool)

@[simp] theorem set_reg_self : (s.set r v).reg r = v := Function.update_self _ _ _
@[simp] theorem set_reg_of_ne {q : Reg} (h : q ≠ r) : (s.set r v).reg q = s.reg q :=
  Function.update_of_ne h _ _
@[simp] theorem set_mem : (s.set r v).mem = s.mem := (rfl)
@[simp] theorem set_rip : (s.set r v).rip = s.rip := (rfl)
@[simp] theorem set_fsBase : (s.set r v).fsBase = s.fsBase := (rfl)
@[simp] theorem set_fpu : (s.set r v).fpu = s.fpu := (rfl)
@[simp] theorem setMem_reg : (s.setMem m).reg = s.reg := (rfl)
@[simp] theorem setMem_mem : (s.setMem m).mem = m := (rfl)
@[simp] theorem setMem_rip : (s.setMem m).rip = s.rip := (rfl)
@[simp] theorem setMem_fsBase : (s.setMem m).fsBase = s.fsBase := (rfl)
@[simp] theorem setFlags_reg : (s.setFlags zf cf).reg = s.reg := (rfl)
@[simp] theorem setFlags_mem : (s.setFlags zf cf).mem = s.mem := (rfl)
@[simp] theorem setFlags_fsBase : (s.setFlags zf cf).fsBase = s.fsBase := (rfl)
@[simp] theorem setFlags_fpu : (s.setFlags zf cf).fpu = s.fpu := (rfl)
@[simp] theorem setFlags_zf : (s.setFlags zf cf).zf = zf := (rfl)
@[simp] theorem setFlags_cf : (s.setFlags zf cf).cf = cf := (rfl)
@[simp] theorem setFpu_reg (f : Fin 464 → Byte) : (s.setFpu f).reg = s.reg := (rfl)
@[simp] theorem setFpu_mem (f : Fin 464 → Byte) : (s.setFpu f).mem = s.mem := (rfl)
@[simp] theorem setFpu_fpu (f : Fin 464 → Byte) : (s.setFpu f).fpu = f := (rfl)
@[simp] theorem goto_reg : (s.goto a).reg = s.reg := (rfl)
@[simp] theorem goto_mem : (s.goto a).mem = s.mem := (rfl)
@[simp] theorem goto_rip : (s.goto a).rip = a := (rfl)
@[simp] theorem goto_fsBase : (s.goto a).fsBase = s.fsBase := (rfl)
@[simp] theorem goto_zf : (s.goto a).zf = s.zf := (rfl)
@[simp] theorem goto_cf : (s.goto a).cf = s.cf := (rfl)
@[simp] theorem goto_goto (b : Word) : (s.goto a).goto b = s.goto b := (rfl)

@[simp] lemma push_rsp (s : Machine) (v : Word) : (s.push v).reg .rsp = s.reg .rsp-8#64 :=
  set_reg_self _ _ _

@[simp] lemma push_reg_of_ne (s : Machine) (v : Word) {r : Reg} (h : r ≠ .rsp) :
    (s.push v).reg r = s.reg r := set_reg_of_ne _ _ _ h

@[simp] lemma push_fsBase (s : Machine) (v : Word) : (s.push v).fsBase = s.fsBase := (rfl)

lemma image_congr {s t : Machine} (h : t.fpu = s.fpu) : t.image = s.image := by
  funext i
  rw [Machine.image,Machine.image,h]

lemma image_val (s : Machine) (i : Fin 464) : s.image i = s.fpu i := dif_pos i.isLt

end Fields

section Evaluation

variable (s : Machine) (dst src r q : Reg) (v : Word) (m : Addr) (x : Src) (n : ℕ)

@[simp] lemma ea_based : s.ea (.based r v) = s.reg r+v := (rfl)
@[simp] lemma ea_scaled : s.ea (.scaled r q v) = s.reg r+v*s.reg q := (rfl)
@[simp] lemma ea_indexed (d : Word) : s.ea (.indexed r q v d) = s.reg r+v*s.reg q+d := (rfl)
@[simp] lemma ea_symbol : s.ea (.symbol v) = v := (rfl)
@[simp] lemma ea_fs : s.ea (.fs v) = s.fsBase+v := (rfl)
@[simp] lemma value_reg : s.value (.reg r) = s.reg r := (rfl)
@[simp] lemma value_imm : s.value (.imm v) = v := (rfl)
@[simp] lemma value_mem : s.value (.mem m) = s.mem.word (s.ea m) := (rfl)
@[simp] lemma holds_e : s.holds .e = s.zf := (rfl)
@[simp] lemma holds_ne : s.holds .ne = !s.zf := (rfl)
@[simp] lemma holds_ae : s.holds .ae = !s.cf := (rfl)
@[simp] lemma exec_mov : (Op.mov dst x).exec s = s.set dst (s.value x) := (rfl)
@[simp] lemma exec_mov32 :
    (Op.mov32 dst x).exec s = s.set dst (((s.value x).setWidth 32).setWidth 64) := (rfl)
@[simp] lemma exec_store :
    (Op.store m src).exec s = s.setMem (s.mem.setWord (s.ea m) (s.reg src)) := (rfl)
@[simp] lemma exec_lea : (Op.lea dst m).exec s = s.set dst (s.ea m) := (rfl)
@[simp] lemma exec_push : (Op.push src).exec s = s.push (s.reg src) := (rfl)
@[simp] lemma exec_pushSrc : (Op.pushSrc x).exec s = s.push (s.value x) := (rfl)
@[simp] lemma exec_pop : (Op.pop dst).exec s =
    (s.set .rsp (s.reg .rsp+8#64)).set dst (s.mem.word (s.reg .rsp)) := (rfl)
@[simp] lemma exec_add : (Op.add dst x).exec s =
    (s.set dst (s.reg dst+s.value x)).setFlags (s.reg dst+s.value x == 0#64)
      (2^64 ≤ (s.reg dst).toNat+(s.value x).toNat) := (rfl)
@[simp] lemma exec_sub : (Op.sub dst x).exec s =
    (s.set dst (s.reg dst-s.value x)).setFlags (s.reg dst-s.value x == 0#64)
      (s.reg dst < s.value x) := (rfl)
@[simp] lemma exec_and : (Op.and dst x).exec s =
    (s.set dst (s.reg dst &&& s.value x)).setFlags (s.reg dst &&& s.value x == 0#64) false := (rfl)
@[simp] lemma exec_xor : (Op.xor dst x).exec s =
    (s.set dst (s.reg dst ^^^ s.value x)).setFlags (s.reg dst ^^^ s.value x == 0#64) false := (rfl)
@[simp] lemma exec_shl : (Op.shl dst n).exec s =
    (s.set dst (s.reg dst <<< n)).setFlags (s.reg dst <<< n == 0#64)
      ((s.reg dst).getLsbD (64-n)) := (rfl)
@[simp] lemma exec_shr : (Op.shr dst n).exec s =
    (s.set dst (s.reg dst >>> n)).setFlags (s.reg dst >>> n == 0#64)
      ((s.reg dst).getLsbD (n-1)) := (rfl)
@[simp] lemma exec_cmp :
    (Op.cmp r x).exec s = s.setFlags (s.reg r == s.value x) (s.reg r < s.value x) := (rfl)
@[simp] lemma exec_test :
    (Op.test r q).exec s = s.setFlags (s.reg r &&& s.reg q == 0#64) false := (rfl)
@[simp] lemma exec_testImm :
    (Op.testImm r v).exec s = s.setFlags (s.reg r &&& v == 0#64) false := (rfl)
@[simp] lemma exec_cmp32 (w : BitVec 32) : (Op.cmp32 r w).exec s =
    s.setFlags ((s.reg r).setWidth 32 == w) ((s.reg r).setWidth 32 < w) := (rfl)
@[simp] lemma exec_test32 : (Op.test32 r q).exec s =
    s.setFlags ((s.reg r).setWidth 32 &&& (s.reg q).setWidth 32 == 0#32) false := (rfl)
@[simp] lemma exec_cmovne :
    (Op.cmovne dst src).exec s = s.set dst (if s.zf then s.reg dst else s.reg src) := (rfl)
@[simp] lemma exec_movupsStore : (Op.movupsStore m).exec s =
    s.setMem (s.mem.fill (s.ea m) 16 fun i => s.image (160+i)) := (rfl)

end Evaluation

section Blocks

variable {code : Code} {s t u : Machine} {a : Word}

theorem Reaches.trans (h : Reaches code s t) (h' : Reaches code t u) : Reaches code s u :=
  ReflTransGen.trans h h'

theorem Reaches.refl : Reaches code s s := ReflTransGen.refl

theorem reaches_one {i : Instr} (hi : code s.rip = some i) (hx : i.exec s = some t) :
    Reaches code s t := by
  refine ReflTransGen.single ?_
  rw [step,hi,Option.bind_some,hx]

lemma Loaded.drop {l : List Instr} (h : Loaded code a l) (n : ℕ) :
    Loaded code (a+BitVec.ofNat 64 n) (l.drop n) := by
  induction n generalizing a l with
  | zero => simpa using h
  | succ n ih =>
    cases l with
    | nil => trivial
    | cons i is =>
      have hrest := ih h.2
      rw [BitVec.add_assoc,BitVec.add_comm 1#64,← BitVec.ofNat_add] at hrest
      exact hrest

@[simp] lemma runOps_nil : runOps [] s = s := (rfl)

@[simp] lemma runOps_cons (o : Op) (os : List Op) : runOps (o::os) s = runOps os (o.exec s) :=
  (rfl)

lemma runOps_append (os ps : List Op) : runOps (os++ps) s = runOps ps (runOps os s) :=
  List.foldl_append

@[simp] lemma ea_goto (m : Addr) : (s.goto a).ea m = s.ea m := by cases m <;> rfl

@[simp] lemma value_goto (src : Src) : (s.goto a).value src = s.value src := by
  cases src with
  | mem m => rw [Machine.value,Machine.value,ea_goto,goto_mem]
  | _ => rfl

lemma goto_set (r : Reg) (v : Word) : (s.goto a).set r v = (s.set r v).goto a := rfl

lemma goto_setMem (m : Mem 64) : (s.goto a).setMem m = (s.setMem m).goto a := rfl

lemma goto_push (v : Word) : (s.goto a).push v = (s.push v).goto a := rfl

lemma goto_setFlags (zf cf : Bool) : (s.goto a).setFlags zf cf = (s.setFlags zf cf).goto a := rfl

/-- No instruction of a block looks at the code address. -/
lemma exec_goto (o : Op) : o.exec (s.goto a) = (o.exec s).goto a := by
  cases o with
  | movupsLoad m | movupsStore m => rw [Op.exec,Op.exec,ea_goto]; rfl
  | pushSrc src => rw [Op.exec,Op.exec,value_goto,goto_push]
  | push src => rfl
  | pop dst => rfl
  | cmp32 b v => rfl
  | cmovne dst src => rfl
  | _ => simp only [Op.exec,value_goto,ea_goto,goto_reg,goto_mem,goto_set,
      goto_setMem,goto_setFlags]

lemma runOps_goto (os : List Op) : runOps os (s.goto a) = (runOps os s).goto a := by
  induction os generalizing s with
  | nil => rfl
  | cons o os ih => rw [runOps_cons,runOps_cons,exec_goto,ih]

@[simp] lemma exec_fsBase (o : Op) : (o.exec s).fsBase = s.fsBase := by cases o <;> rfl

@[simp] lemma runOps_fsBase (os : List Op) : (runOps os s).fsBase = s.fsBase := by
  induction os generalizing s with
  | nil => rfl
  | cons o os ih => rw [runOps_cons,ih,exec_fsBase]

/-- A block runs from its first instruction to the one behind its last. -/
theorem reaches_ops (os : List Op) {rest : List Instr} (n : ℕ) (hn : os.length = n)
    (hs : s.rip = a) (h : Loaded code a (os.map .op++rest)) :
    Reaches code s ((runOps os s).goto (a+BitVec.ofNat 64 n)) ∧
      Loaded code (a+BitVec.ofNat 64 n) rest := by
  subst hn
  induction os generalizing s a with
  | nil =>
    rw [List.length_nil,BitVec.add_zero]
    refine ⟨?_,h⟩
    rw [← hs]
    exact Reaches.refl
  | cons o os ih =>
    obtain ⟨hi,hrest⟩ := h
    rw [← hs] at hi
    have hstep : Reaches code s ((o.exec s).goto (s.rip+1#64)) := reaches_one hi rfl
    rw [hs] at hstep
    obtain ⟨hrun,hload⟩ := ih (s := (o.exec s).goto (a+1#64)) rfl hrest
    rw [goto_rip,BitVec.add_assoc,BitVec.add_comm 1#64,← BitVec.ofNat_add] at hload hrun
    rw [runOps_goto,goto_goto] at hrun
    exact ⟨hstep.trans hrun,hload⟩

section Jumps

variable {l : List Instr} {target : Word} (hs : s.rip = a)
include hs

theorem reaches_jmp (h : Loaded code a (.jmp target::l)) : Reaches code s (s.goto target) := by
  rw [← hs] at h
  exact reaches_one h.1 rfl

theorem reaches_jmpReg {r : Reg} (h : Loaded code a (.jmpReg r::l)) :
    Reaches code s (s.goto (s.reg r)) := by
  rw [← hs] at h
  exact reaches_one h.1 rfl

theorem reaches_call (h : Loaded code a (.call target::l)) :
    Reaches code s ((s.push (a+1#64)).goto target) := by
  rw [← hs] at h ⊢
  exact reaches_one h.1 rfl

theorem reaches_ret (h : Loaded code a (.ret::l)) :
    Reaches code s ((s.set .rsp (s.reg .rsp+8#64)).goto (s.mem.word (s.reg .rsp))) := by
  rw [← hs] at h
  exact reaches_one h.1 rfl

/-- An aligned image of the vector registers is stored. -/
theorem reaches_fxsave {m : Addr} (h : Loaded code a (.fxsave m::l))
    (hal : (s.ea m).toNat % 16 = 0) :
    Reaches code s ((s.setMem (s.mem.fill (s.ea m) 464 s.image)).goto (a+1#64)) := by
  rw [← hs] at h ⊢
  exact reaches_one h.1 (if_pos (beq_iff_eq.mpr hal))

/-- An aligned image of the vector registers is loaded. -/
theorem reaches_fxrstor {m : Addr} (h : Loaded code a (.fxrstor m::l))
    (hal : (s.ea m).toNat % 16 = 0) :
    Reaches code s ((s.setFpu fun i => s.mem (s.ea m+BitVec.ofNat 64 i)).goto (a+1#64)) := by
  rw [← hs] at h ⊢
  exact reaches_one h.1 (if_pos (beq_iff_eq.mpr hal))

/-- A conditional jump goes to its target, or on to what follows it. -/
theorem reaches_jcc {c : Cond} (h : Loaded code a (.jcc c target::l)) :
    Reaches code s (s.goto (if s.holds c then target else a+1#64)) := by
  rw [← hs] at h ⊢
  exact reaches_one h.1 rfl

end Jumps

end Blocks

section Keeps

variable {s t u : Machine} {rs qs : List Reg}

/-- The registers an instruction writes. -/
def Op.writes : Op → List Reg
  | .mov dst _ | .mov32 dst _ | .lea dst _ | .add dst _ | .sub dst _ | .and dst _ | .shr dst _ |
    .cmovne dst _ | .xor dst _ | .shl dst _ => [dst]
  | .pop dst => [.rsp,dst]
  | .push _ | .pushSrc _ => [.rsp]
  | .store _ _ | .cmp _ _ | .cmp32 _ _ | .test _ _ | .testImm _ _ | .test32 _ _ | .movupsLoad _ |
    .movupsStore _ => []

/-- The instruction writes general registers and flags only. -/
def Op.quiet : Op → Bool
  | .store _ _ | .push _ | .pushSrc _ | .movupsLoad _ | .movupsStore _ => false
  | _ => true

/-- Nothing but the listed registers, the flags and the code address changed. -/
structure Keeps (rs : List Reg) (s t : Machine) : Prop where
  reg : ∀ r, r ∉ rs → t.reg r = s.reg r
  mem : t.mem = s.mem
  fsBase : t.fsBase = s.fsBase
  fpu : t.fpu = s.fpu

lemma Keeps.refl : Keeps rs s s := ⟨fun _ _ => rfl,rfl,rfl,rfl⟩

lemma Keeps.trans (h : Keeps rs s t) (h' : Keeps rs t u) : Keeps rs s u :=
  ⟨fun r hr => (h'.reg r hr).trans (h.reg r hr),h'.mem.trans h.mem,h'.fsBase.trans h.fsBase,
    h'.fpu.trans h.fpu⟩

lemma Keeps.mono (h : Keeps rs s t) (hrs : rs ⊆ qs) : Keeps qs s t :=
  ⟨fun r hr => h.reg r fun hc => hr (hrs hc),h.mem,h.fsBase,h.fpu⟩

lemma Keeps.goto (h : Keeps rs s t) (a : Word) : Keeps rs s (t.goto a) :=
  ⟨h.reg,h.mem,h.fsBase,h.fpu⟩

lemma Keeps.set (h : Keeps rs s t) {r : Reg} (hr : r ∈ rs) (v : Word) : Keeps rs s (t.set r v) :=
  ⟨fun q hq => (set_reg_of_ne _ _ _ (ne_of_mem_of_not_mem hr hq).symm).trans (h.reg q hq),h.mem,
    h.fsBase,h.fpu⟩

lemma exec_reg_of_not_mem (o : Op) {r : Reg} (h : r ∉ o.writes) : (o.exec s).reg r = s.reg r := by
  cases o <;> simp_all [Op.writes,Op.exec]

lemma exec_keeps {o : Op} (h : o.quiet = true) : Keeps o.writes s (o.exec s) := by
  refine ⟨fun r hr => exec_reg_of_not_mem o hr,?_,?_,?_⟩ <;> cases o <;>
    first | rfl | simp [Op.quiet] at h

/-- The instruction writes nothing but these registers and the flags. -/
def Op.within (rs : List Reg) (o : Op) : Bool := o.quiet && o.writes.all fun r => r ∈ rs

theorem runOps_keeps {os : List Op} (h : os.all (Op.within rs) = true) :
    Keeps rs s (runOps os s) := by
  induction os generalizing s with
  | nil => exact Keeps.refl
  | cons o os ih =>
    rw [List.all_cons,Bool.and_eq_true,Op.within,Bool.and_eq_true,List.all_eq_true] at h
    obtain ⟨⟨hq,hw⟩,hos⟩ := h
    have ho : Keeps rs s (o.exec s) := (exec_keeps hq).mono fun r hr => of_decide_eq_true (hw r hr)
    exact ho.trans (ih hos)

end Keeps

section Stack

variable {m m' : Mem 64} {a b : Word} {n : ℕ}

/-- The words from an address on. -/
def WordsAt (m : Mem 64) : Word → List Word → Prop
  | _,[] => True
  | a,w::ws => m.word a = w ∧ WordsAt m (a+8#64) ws

lemma setWord_of_le {x : Word} (v : Word) (h : 8 ≤ (x-a).toNat) : m.setWord a v x = m x :=
  if_neg (by omega)

/-- A word that none of the changed bytes belongs to. -/
lemma word_of_agree (h : ∀ x, n ≤ (x-a).toNat → m' x = m x) (hlo : n ≤ (b-a).toNat)
    (hhi : (b-a).toNat+8 ≤ 2^64) : m'.word b = m.word b := by
  refine word_congr fun i hi => h _ ?_
  have hoff : (b+BitVec.ofNat 64 i-a).toNat = (b-a).toNat+i := by
    rw [show b+BitVec.ofNat 64 i-a = b-a+BitVec.ofNat 64 i by bv_omega]
    exact add_ofNat_toNat (by omega)
  omega

lemma word_setWord_of_le (v : Word) (hlo : 8 ≤ (b-a).toNat) (hhi : (b-a).toNat+8 ≤ 2^64) :
    (m.setWord a v).word b = m.word b :=
  word_of_agree (fun _ hx => setWord_of_le v hx) hlo hhi

lemma WordsAt.congr {ws : List Word} (h : WordsAt m a ws)
    (hm : ∀ i < 8*ws.length, m' (a+BitVec.ofNat 64 i) = m (a+BitVec.ofNat 64 i)) :
    WordsAt m' a ws := by
  induction ws generalizing a with
  | nil => trivial
  | cons w ws ih =>
    rw [List.length_cons] at hm
    refine ⟨(word_congr fun i hi => hm i (by omega)).trans h.1,ih h.2 fun i hi => ?_⟩
    have := hm (8+i) (by omega)
    rwa [BitVec.ofNat_add,← BitVec.add_assoc] at this

/-- Words stored one after another. -/
def setWords (m : Mem 64) : Word → List Word → Mem 64
  | _,[] => m
  | a,w::ws => setWords (m.setWord a w) (a+8#64) ws

lemma setWords_of_le {ws : List Word} {x : Word} (h : 8*ws.length ≤ (x-a).toNat) :
    setWords m a ws x = m x := by
  induction ws generalizing m a with
  | nil => rfl
  | cons w ws ih =>
    rw [List.length_cons] at h
    have hsub : (x-(a+8#64)).toNat = (x-a).toNat-8 := by bv_omega
    rw [setWords,ih (by omega),setWord_of_le w (by omega)]

/-- Words that do not meet around the address space are all there. -/
lemma wordsAt_setWords {ws : List Word} (h : 8*ws.length ≤ 2^64) :
    WordsAt (setWords m a ws) a ws := by
  induction ws generalizing m a with
  | nil => trivial
  | cons w ws ih =>
    rw [List.length_cons] at h
    refine ⟨?_,ih (by omega)⟩
    have hsame : ∀ i < 8, setWords (m.setWord a w) (a+8#64) ws (a+BitVec.ofNat 64 i) =
        m.setWord a w (a+BitVec.ofNat 64 i) := by
      intro i hi
      refine setWords_of_le ?_
      rw [show a+BitVec.ofNat 64 i-(a+8#64) = BitVec.ofNat 64 i-8#64 by bv_omega]
      bv_omega
    rw [setWords,word_congr hsame,word_setWord (by decide)]

/-- What saving a list of registers on the stack does. -/
structure Pushed (rs : List Reg) (s t : Machine) : Prop where
  rsp : t.reg .rsp = s.reg .rsp-BitVec.ofNat 64 (8*rs.length)
  reg : ∀ r, r ≠ .rsp → t.reg r = s.reg r
  words : WordsAt t.mem (t.reg .rsp) (rs.map s.reg).reverse
  above : ∀ x, 8*rs.length ≤ (x-t.reg .rsp).toNat → t.mem x = s.mem x
  fsBase : t.fsBase = s.fsBase
  fpu : t.fpu = s.fpu

lemma push_mem_of_le {s : Machine} {v x : Word} (h : 8 ≤ (x-(s.reg .rsp-8#64)).toNat) :
    (s.push v).mem x = s.mem x := setWord_of_le v h

lemma push_word (s : Machine) (v : Word) : (s.push v).mem.word (s.reg .rsp-8#64) = v :=
  word_setWord (by decide) _ _ _

theorem runOps_push {rs : List Reg} (hrs : .rsp ∉ rs) (hlen : 8*rs.length < 2^64) (s : Machine) :
    Pushed rs s (runOps (rs.map .push) s) := by
  -- From the last push back: it writes below all the words already there.
  induction rs using List.reverseRecOn with
  | nil => exact ⟨by simp,fun _ _ => rfl,trivial,fun _ _ => rfl,rfl,rfl⟩
  | append_singleton rs r ih =>
    rw [List.length_append,List.length_singleton] at hlen
    rw [List.mem_append,List.mem_singleton,not_or] at hrs
    have h := ih hrs.1 (by omega)
    rw [List.map_append,runOps_append]
    generalize runOps (rs.map .push) s = t at h ⊢
    change Pushed (rs++[r]) s (t.push (t.reg r))
    have hr : t.reg r = s.reg r := h.reg r (Ne.symm hrs.2)
    refine ⟨?_,fun q hq => ?_,?_,fun x hx => ?_,h.fsBase,h.fpu⟩
    · rw [push_rsp,h.rsp,List.length_append,List.length_singleton,Nat.mul_add,BitVec.ofNat_add,
        BitVec.sub_sub]
    · rw [push_reg_of_ne _ _ hq,h.reg q hq]
    · rw [List.map_append,List.reverse_append,push_rsp]
      refine ⟨(push_word _ _).trans hr,?_⟩
      rw [BitVec.sub_add_cancel]
      refine h.words.congr fun i hi => push_mem_of_le ?_
      rw [List.length_reverse,List.length_map] at hi
      rw [show t.reg .rsp+BitVec.ofNat 64 i-(t.reg .rsp-8#64) = BitVec.ofNat 64 (8+i) by
        rw [BitVec.ofNat_add]; bv_omega,BitVec.toNat_ofNat,Nat.mod_eq_of_lt (by omega)]
      omega
    · rw [List.length_append,List.length_singleton] at hx
      rw [push_rsp] at hx
      rw [push_mem_of_le (by omega)]
      refine h.above x ?_
      have hsub : (x-t.reg .rsp).toNat = (x-(t.reg .rsp-8#64)).toNat-8 := by
        generalize hd : x-(t.reg .rsp-8#64) = d at hx ⊢
        rw [show x-t.reg .rsp = d-8#64 by rw [← hd]; bv_omega,BitVec.toNat_sub_of_le]
        · rfl
        · exact BitVec.le_def.mpr (by simp only [BitVec.toNat_ofNat]; omega)
      omega

/-- Restoring registers from the words on the stack. -/
theorem runOps_pop {rs : List Reg} (hrs : .rsp ∉ rs) (hnd : rs.Nodup) {s : Machine}
    {v : Reg → Word} (hws : WordsAt s.mem (s.reg .rsp) (rs.map v)) :
    let t := runOps (rs.map .pop) s
    t.reg .rsp = s.reg .rsp+BitVec.ofNat 64 (8*rs.length) ∧ (∀ r ∈ rs, t.reg r = v r) ∧
      (∀ r, r ≠ .rsp → r ∉ rs → t.reg r = s.reg r) ∧ t.mem = s.mem ∧ t.fsBase = s.fsBase ∧
      t.fpu = s.fpu := by
  induction rs generalizing s with
  | nil => exact ⟨by simp,by simp,fun _ _ _ => rfl,rfl,rfl,rfl⟩
  | cons r rs ih =>
    rw [List.mem_cons,not_or] at hrs
    rw [List.nodup_cons] at hnd
    obtain ⟨hw,hws⟩ := hws
    set t := (Op.pop r).exec s with ht
    have hrsp : t.reg .rsp = s.reg .rsp+8#64 :=
      (set_reg_of_ne _ _ _ hrs.1).trans (set_reg_self _ _ _)
    have hr : t.reg r = v r := (set_reg_self _ _ _).trans hw
    have hne : ∀ q, q ≠ .rsp → q ≠ r → t.reg q = s.reg q := fun q hq hqr =>
      (set_reg_of_ne _ _ _ hqr).trans (set_reg_of_ne _ _ _ hq)
    obtain ⟨h₁,h₂,h₃,h₄,h₅,h₆⟩ := ih (s := t) hrs.2 hnd.2 (by rw [hrsp]; exact hws)
    refine ⟨?_,fun q hq => ?_,fun q hq hqr => ?_,h₄,h₅,h₆⟩
    · rw [List.map_cons,runOps_cons,← ht,h₁,hrsp,List.length_cons,Nat.mul_succ,BitVec.ofNat_add,
        BitVec.add_assoc,BitVec.add_comm 8#64]
    · rw [List.map_cons,runOps_cons,← ht]
      rcases List.mem_cons.mp hq with rfl | hq
      · exact (h₃ q (Ne.symm hrs.1) hnd.1).trans hr
      · exact h₂ q hq
    · rw [List.mem_cons,not_or] at hqr
      rw [List.map_cons,runOps_cons,← ht,h₃ q hq hqr.2,hne q hq hqr.1]

end Stack

/-- A property of the memory that the `n` bytes below `sp` have no part in. -/
def SparesBelow (P : Mem 64 → Prop) (sp : Word) (n : ℕ) (m : Mem 64) : Prop :=
  ∀ m' : Mem 64, (∀ x, n ≤ (x-(sp-BitVec.ofNat 64 n)).toNat → m' x = m x) → P m'

/-- The registers a function of the System V calling convention gives back. -/
def calleeSaved : List Reg := [.rbx,.rbp,.r12,.r13,.r14,.r15]

/-- `u` is a return from the function entered at `t`. The function leaves the `n` bytes above its
return address to its caller. -/
structure Returns (n : ℕ) (t u : Machine) : Prop where
  rip : u.rip = t.mem.word (t.reg .rsp)
  rsp : u.reg .rsp = t.reg .rsp+8#64
  saved : ∀ r ∈ calleeSaved, u.reg r = t.reg r
  fsBase : u.fsBase = t.fsBase
  frame : ∀ i < n, u.mem (t.reg .rsp+8#64+BitVec.ofNat 64 i) =
    t.mem (t.reg .rsp+8#64+BitVec.ofNat 64 i)

lemma Returns.of_keeps {n : ℕ} {rs : List Reg} {t u v : Machine} (hk : Keeps rs t u) (hrs : .rsp ∉ rs)
    (hsaved : ∀ r ∈ calleeSaved, r ∉ rs) (h : Returns n u v) : Returns n t v := by
  have hrsp : u.reg .rsp = t.reg .rsp := hk.reg _ hrs
  refine ⟨?_,?_,fun r hr => ?_,h.fsBase.trans hk.fsBase,fun i hi => ?_⟩
  · rw [h.rip,hk.mem,hrsp]
  · rw [h.rsp,hrsp]
  · rw [h.saved r hr,hk.reg r (hsaved r hr)]
  · rw [← hrsp,h.frame i hi,hk.mem]

end WinterLily.X86
