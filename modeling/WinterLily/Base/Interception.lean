import WinterLily.Base.X86

/-! A kernel that turns the system calls of a program into signals. A call made outside one region of
the code raises a signal while a byte of the program's memory says so; the handler finds the registers
of the interrupted code in a frame on its stack, and `rt_sigreturn` takes them from there again. -/
namespace WinterLily.X86
open WinterLily.Memory Relation

section Windows

variable {top : Word} {i j k n : ℕ} {m m₁ m₂ : Mem 64}

/-- The memories differ at most in bytes that are more than `i` and at most `j` below `top`. -/
def SameBut (top : Word) (i j : ℕ) (m m' : Mem 64) : Prop :=
  ∀ x, (top-x).toNat ≤ i ∨ j < (top-x).toNat → m' x = m x

lemma SameBut.trans (h : SameBut top i j m m₁) (h' : SameBut top i j m₁ m₂) :
    SameBut top i j m m₂ := fun x hx => (h' x hx).trans (h x hx)

lemma SameBut.mono {i' j' : ℕ} (h : SameBut top i j m m₁) (hi : i' ≤ i) (hj : j ≤ j') :
    SameBut top i' j' m m₁ := fun x hx => h x (by omega)

lemma below_toNat (hk : k < 2^64) : (top-(top-BitVec.ofNat 64 k)).toNat = k := by
  rw [show top-(top-BitVec.ofNat 64 k) = BitVec.ofNat 64 k by bv_omega,BitVec.toNat_ofNat]
  exact Nat.mod_eq_of_lt hk

lemma below_add (hi : i ≤ k) :
    top-BitVec.ofNat 64 k+BitVec.ofNat 64 i = top-BitVec.ofNat 64 (k-i) := by
  have hk : BitVec.ofNat 64 k = BitVec.ofNat 64 (k-i)+BitVec.ofNat 64 i := by
    rw [← BitVec.ofNat_add,Nat.sub_add_cancel hi]
  rw [hk]
  bv_omega

lemma below_sub : top-BitVec.ofNat 64 k-BitVec.ofNat 64 n = top-BitVec.ofNat 64 (k+n) := by
  rw [BitVec.ofNat_add,BitVec.sub_sub]

/-- How far above the byte `k` below `top` an address is. -/
lemma sub_below (x : Word) (hk : k < 2^64) : (x-(top-BitVec.ofNat 64 k)).toNat =
    if (top-x).toNat ≤ k then k-(top-x).toNat else 2^64+k-(top-x).toNat := by
  have hδ := (top-x).isLt
  rw [show x-(top-BitVec.ofNat 64 k) = BitVec.ofNat 64 k-(top-x) by bv_omega,BitVec.toNat_sub,
    BitVec.toNat_ofNat,Nat.mod_eq_of_lt hk]
  split_ifs with h
  · rw [show 2^64-(top-x).toNat+k = k-(top-x).toNat+2^64 by omega,Nat.add_mod_right,
      Nat.mod_eq_of_lt (by omega)]
  · rw [Nat.mod_eq_of_lt (by omega)]
    omega

lemma sameBut_of_off (hk : k < 2^64) (hn : n ≤ k)
    (h : ∀ x, n ≤ (x-(top-BitVec.ofNat 64 k)).toNat → m₁ x = m x) : SameBut top (k-n) k m m₁ := by
  intro x hx
  refine h x ?_
  have hδ := (top-x).isLt
  rw [sub_below x hk]
  split_ifs <;> omega

/-- A window seen from the byte `k` below `top`. -/
lemma SameBut.rebase (h : SameBut (top-BitVec.ofNat 64 k) i j m m₁) (hj : k+j < 2^64) :
    SameBut top (k+i) (k+j) m m₁ := by
  intro x hx
  refine h x ?_
  have hδ := (top-x).isLt
  have hback : (top-BitVec.ofNat 64 k-x).toNat =
      if k ≤ (top-x).toNat then (top-x).toNat-k else 2^64+(top-x).toNat-k := by
    have hk : (BitVec.ofNat 64 k).toNat = k := by
      rw [BitVec.toNat_ofNat]
      exact Nat.mod_eq_of_lt (by omega)
    rw [show top-BitVec.ofNat 64 k-x = top-x-BitVec.ofNat 64 k by bv_omega,BitVec.toNat_sub,hk]
    split_ifs with hle
    · rw [show 2^64-k+(top-x).toNat = (top-x).toNat-k+2^64 by omega,Nat.add_mod_right,
        Nat.mod_eq_of_lt (by omega)]
    · rw [Nat.mod_eq_of_lt (by omega)]
      omega
  rw [hback]
  split_ifs <;> omega

lemma SameBut.byte (h : SameBut top i j m m₁) (hk : k < 2^64) (hw : k ≤ i ∨ j < k) :
    m₁ (top-BitVec.ofNat 64 k) = m (top-BitVec.ofNat 64 k) :=
  h _ (by rw [below_toNat hk]; exact hw)

lemma sameBut_fill (hk : k < 2^64) (hn : n ≤ k) (g : ℕ → Byte) :
    SameBut top (k-n) k m (m.fill (top-BitVec.ofNat 64 k) n g) :=
  sameBut_of_off hk hn fun _ hx => if_neg (by omega)

lemma sameBut_setWord (hk : k < 2^64) (h8 : 8 ≤ k) (v : Word) :
    SameBut top (k-8) k m (m.setWord (top-BitVec.ofNat 64 k) v) :=
  sameBut_of_off hk h8 fun _ hx => setWord_of_le v hx

lemma sameBut_setWords (hk : k < 2^64) (ws : List Word) (hn : 8*ws.length ≤ k) :
    SameBut top (k-8*ws.length) k m (setWords m (top-BitVec.ofNat 64 k) ws) :=
  sameBut_of_off hk hn fun _ hx => setWords_of_le hx

lemma WordsAt.get {a w : Word} {ws : List Word} (h : WordsAt m a ws) (hi : ws[i]? = some w) :
    m.word (a+BitVec.ofNat 64 (8*i)) = w := by
  induction ws generalizing a i with
  | nil => simp at hi
  | cons v ws ih =>
    cases i with
    | zero =>
      rw [Nat.mul_zero,BitVec.add_zero,h.1]
      simpa using hi
    | succ i =>
      have := ih h.2 (by simpa using hi)
      rwa [BitVec.add_assoc,← BitVec.ofNat_add,show 8+8*i = 8*(i+1) by omega] at this

end Windows

/-- The flags that the machine has, in a word. -/
def Machine.flags (s : Machine) : Word :=
  (if s.cf then 1#64 else 0#64) ||| (if s.zf then 0x40#64 else 0#64)

lemma flags_cf (s : Machine) : s.flags.getLsbD 0 = s.cf := by
  unfold Machine.flags
  cases s.cf <;> cases s.zf <;> rfl

lemma flags_zf (s : Machine) : s.flags.getLsbD 6 = s.zf := by
  unfold Machine.flags
  cases s.cf <;> cases s.zf <;> rfl

/-- The machine after a `syscall`, as the kernel finds it. -/
def Machine.entered (s : Machine) : Machine :=
  ((s.set .rcx (s.rip+1#64)).set .r11 s.flags).goto (s.rip+1#64)

/-- The place of a register in the context that the kernel saves. -/
def Reg.slot : Reg → ℕ
  | .r8 => 0
  | .r9 => 1
  | .r10 => 2
  | .r11 => 3
  | .r12 => 4
  | .r13 => 5
  | .r14 => 6
  | .r15 => 7
  | .rdi => 8
  | .rsi => 9
  | .rbp => 10
  | .rbx => 11
  | .rdx => 12
  | .rax => 13
  | .rcx => 14
  | .rsp => 15

def context (c : Machine) : List Word :=
  [c.reg .r8,c.reg .r9,c.reg .r10,c.reg .r11,c.reg .r12,c.reg .r13,c.reg .r14,c.reg .r15,c.reg .rdi,
    c.reg .rsi,c.reg .rbp,c.reg .rbx,c.reg .rdx,c.reg .rax,c.reg .rcx,c.reg .rsp,c.rip,c.flags]

lemma context_get (c : Machine) (r : Reg) : (context c)[r.slot]? = some (c.reg r) := by
  cases r <;> rfl

/-- Where the kernel leaves the calls of one region to the program, how it calls the handler, and
where below the red zone it puts the frame and in it the floating-point state. `other` fills those
parts of the frame that nothing here reads, and `native` are its own calls other than
`rt_sigreturn`. -/
structure Kernel where
  base : Word
  size : Word
  selector : Word
  handler : Word
  restorer : Word
  room : ℕ
  frame : Word → Word
  fpstate : Word → Word
  other : Machine → ℕ → Byte
  native : Machine → Option Machine
  room_lt : room < 2^32
  fits : ∀ sp, (sp-128#64-frame sp).toNat ≤ room
  apart : ∀ sp, 440 ≤ (fpstate sp-frame sp).toNat
  inside : ∀ sp, (fpstate sp-frame sp).toNat+464 ≤ (sp-128#64-frame sp).toNat

namespace Kernel

variable (K : Kernel)

/-- The frame reaches up to the red zone. -/
def length (sp : Word) : ℕ := (sp-128#64-K.frame sp).toNat

/-- The memory with the frame: the return address, the context 48 bytes into it and 184 bytes into
that the pointer to the floating-point state. -/
def push (c : Machine) : Mem 64 :=
  let f := K.frame (c.reg .rsp)
  let p := K.fpstate (c.reg .rsp)
  let m := (c.mem.fill f (K.length (c.reg .rsp)) (K.other c)).fill p 464 c.image
  ((setWords m (f+48#64) (context c)).setWord (f+232#64) p).setWord f K.restorer

/-- The handler is called with the signal's number, its information and the context. -/
def deliver (c : Machine) : Machine :=
  let f := K.frame (c.reg .rsp)
  { c with
    rip := K.handler
    reg := fun
      | .rdi => 31#64
      | .rsi => f+312#64
      | .rdx => f+8#64
      | .rax => 0#64
      | .rsp => f
      | r => c.reg r
    mem := K.push c }

end Kernel

/-- `rt_sigreturn`, the return address having been popped. -/
def Machine.sigreturn (s : Machine) : Machine :=
  let f := s.reg .rsp-8#64
  { s with
    rip := s.mem.word (f+176#64)
    reg := fun r => s.mem.word (f+48#64+BitVec.ofNat 64 (8*r.slot))
    zf := (s.mem.word (f+184#64)).getLsbD 6
    cf := (s.mem.word (f+184#64)).getLsbD 0
    fpu := fun i => s.mem (s.mem.word (f+232#64)+BitVec.ofNat 64 i) }

/-- A step of the program or of the kernel for it. -/
def Kernel.step (K : Kernel) (code : Code) (s : Machine) : Option Machine :=
  match code s.rip with
  | some .syscall =>
    if s.rip+1#64-K.base < K.size ∨ s.mem K.selector = 0#8 then
      if s.reg .rax = 15#64 then some s.entered.sigreturn else K.native s.entered
    else if s.mem K.selector = 1#8 then some (K.deliver s.entered)
    else none
  | _ => X86.step code s

def Kernel.Reaches (K : Kernel) (code : Code) : Machine → Machine → Prop :=
  ReflTransGen fun s t => K.step code s = some t

section Frames

variable {K : Kernel} {code : Code} {c s t u : Machine} {f p v : Word} {m m₁ : Mem 64} {n : ℕ}

theorem Kernel.Reaches.trans (h : K.Reaches code s t) (h' : K.Reaches code t u) :
    K.Reaches code s u := ReflTransGen.trans h h'

/-- The kernel leaves the other instructions to the machine. -/
lemma Kernel.step_of_step (h : X86.step code s = some t) : K.step code s = some t := by
  unfold Kernel.step
  cases hi : code s.rip with
  | none => exact h
  | some i =>
    cases i with
    | syscall => simp [X86.step,hi,Instr.exec] at h
    | _ => exact h

lemma Reaches.kernel (h : Reaches code s t) : K.Reaches code s t :=
  ReflTransGen.mono (fun _ _ => Kernel.step_of_step) _ _ h

/-- The frame at `f` has the registers of `c`. -/
structure Framed (f p : Word) (c : Machine) (m : Mem 64) : Prop where
  reg : ∀ r : Reg, m.word (f+48#64+BitVec.ofNat 64 (8*r.slot)) = c.reg r
  rip : m.word (f+176#64) = c.rip
  flags : m.word (f+184#64) = c.flags
  pointer : m.word (f+232#64) = p
  fpu : ∀ i : Fin 464, m (p+BitVec.ofNat 64 i) = c.fpu i

/-- What `rt_sigreturn` takes from a frame. -/
theorem sigreturn_framed (h : Framed (s.reg .rsp-8#64) p c s.mem) :
    s.sigreturn = { c with mem := s.mem, fsBase := s.fsBase } := by
  have hreg : s.sigreturn.reg = c.reg := funext h.reg
  have hfpu : s.sigreturn.fpu = c.fpu := by
    funext i
    change s.mem (s.mem.word _+_) = _
    rw [h.pointer,h.fpu]
  unfold Machine.sigreturn at hreg hfpu ⊢
  simp only [h.rip,h.flags,flags_cf,flags_zf] at hreg hfpu ⊢
  rw [hreg,hfpu]

lemma Framed.congr (h : Framed f p c m) (h₁ : 440 ≤ (p-f).toNat) (h₂ : (p-f).toNat+464 ≤ n)
    (hm : ∀ i < n, m₁ (f+BitVec.ofNat 64 i) = m (f+BitVec.ofNat 64 i)) : Framed f p c m₁ := by
  have hword : ∀ k, k+8 ≤ n → m₁.word (f+BitVec.ofNat 64 k) = m.word (f+BitVec.ofNat 64 k) := by
    intro k hk
    refine word_congr fun i hi => ?_
    rw [BitVec.add_assoc,← BitVec.ofNat_add]
    exact hm _ (by omega)
  have hslot : ∀ r : Reg, r.slot ≤ 15 := fun r => by cases r <;> decide
  have hp : p = f+BitVec.ofNat 64 (p-f).toNat := by
    rw [BitVec.ofNat_toNat,BitVec.setWidth_eq]
    bv_omega
  refine ⟨fun r => ?_,(hword 176 (by omega)).trans h.rip,(hword 184 (by omega)).trans h.flags,
    (hword 232 (by omega)).trans h.pointer,fun i => ?_⟩
  · rw [← h.reg r,BitVec.add_assoc,← BitVec.ofNat_add 48]
    exact hword _ (by have := hslot r; omega)
  · rw [← h.fpu i,hp,BitVec.add_assoc,← BitVec.ofNat_add]
    exact hm _ (by omega)

/-- The handler sets the `rax` that the interrupted code finds. -/
lemma Framed.set_rax (h : Framed f p c m) (h₁ : 440 ≤ (p-f).toNat)
    (h₂ : (p-f).toNat+464 < 2^64) (v : Word) :
    Framed f p (c.set .rax v) (m.setWord (f+152#64) v) := by
  have hword : ∀ k : Word, 8 ≤ (k-152#64).toNat → (k-152#64).toNat+8 ≤ 2^64 →
      (m.setWord (f+152#64) v).word (f+k) = m.word (f+k) := by
    intro k hlo hhi
    apply word_setWord_of_le
    · rwa [show f+k-(f+152#64) = k-152#64 by bv_omega]
    · rwa [show f+k-(f+152#64) = k-152#64 by bv_omega]
  refine ⟨fun r => ?_,?_,?_,?_,fun i => ?_⟩
  · by_cases hr : r = .rax
    · subst hr
      rw [set_reg_self,BitVec.add_assoc]
      exact word_setWord (by decide) _ _ _
    · rw [set_reg_of_ne _ _ _ hr,← h.reg r,BitVec.add_assoc]
      cases r with
      | rax => exact absurd rfl hr
      | _ => exact hword _ (by decide) (by decide)
  · exact (hword _ (by decide) (by decide)).trans h.rip
  · exact (hword _ (by decide) (by decide)).trans h.flags
  · exact (hword _ (by decide) (by decide)).trans h.pointer
  · rw [setWord_of_le v]
    · exact h.fpu i
    · have hi := i.isLt
      have hsum : (p-f+BitVec.ofNat 64 i).toNat = (p-f).toNat+i := add_ofNat_toNat (by omega)
      rw [show p+BitVec.ofNat 64 i-(f+152#64) = p-f+BitVec.ofNat 64 i-152#64 by bv_omega]
      generalize p-f+BitVec.ofNat 64 i = x at hsum ⊢
      bv_omega

end Frames

section Delivery

variable {K : Kernel} {c : Machine}

lemma Kernel.length_le (sp : Word) : K.length sp ≤ K.room := K.fits sp

lemma Kernel.length_lt (sp : Word) : K.length sp < 2^32 := (K.fits sp).trans_lt K.room_lt

lemma Kernel.le_length (sp : Word) : 904 ≤ K.length sp := by
  have h₁ := K.apart sp
  have h₂ := K.inside sp
  unfold Kernel.length
  omega

lemma Kernel.frame_eq (sp : Word) : K.frame sp = sp-128#64-BitVec.ofNat 64 (K.length sp) := by
  rw [Kernel.length,BitVec.ofNat_toNat,BitVec.setWidth_eq]
  bv_omega

lemma Kernel.fpstate_eq (sp : Word) :
    K.fpstate sp =
      sp-128#64-BitVec.ofNat 64 (K.length sp-(K.fpstate sp-K.frame sp).toNat) := by
  have hle : (K.fpstate sp-K.frame sp).toNat ≤ K.length sp := by
    have := K.inside sp
    unfold Kernel.length
    omega
  rw [← below_add hle,← K.frame_eq,BitVec.ofNat_toNat,BitVec.setWidth_eq]
  bv_omega

/-- Only memory below the red zone is written. -/
theorem Kernel.push_same (c : Machine) :
    SameBut (c.reg .rsp-128#64) 0 (K.length (c.reg .rsp)) c.mem (K.push c) := by
  set sp := c.reg .rsp with hsp
  have hlt := K.length_lt sp
  have hle := K.le_length sp
  have hp₁ := K.apart sp
  have hp₂ : (K.fpstate sp-K.frame sp).toNat+464 ≤ K.length sp := K.inside sp
  have hf := K.frame_eq sp
  have hp := K.fpstate_eq sp
  unfold Kernel.push
  simp only [← hsp]
  generalize (K.fpstate sp-K.frame sp).toNat = d at hp hp₁ hp₂
  generalize K.fpstate sp = p at hp ⊢
  generalize K.frame sp = f at hf ⊢
  generalize K.length sp = n at hlt hle hp hp₂ hf ⊢
  subst hf hp
  have hctx : (context c).length = 18 := rfl
  rw [show (48#64 : Word) = BitVec.ofNat 64 48 from rfl,
    show (232#64 : Word) = BitVec.ofNat 64 232 from rfl,below_add (by omega),below_add (by omega)]
  refine SameBut.trans (SameBut.trans (SameBut.trans (SameBut.trans
    ((sameBut_fill (by omega) (by omega) _).mono (by omega) (by omega))
    ((sameBut_fill (by omega) (by omega) _).mono (by omega) (by omega)))
    ((sameBut_setWords (by omega) _ (by omega)).mono (by omega) (by omega)))
    ((sameBut_setWord (by omega) (by omega) _).mono (by omega) (by omega)))
    ((sameBut_setWord (by omega) (by omega) _).mono (by omega) (by omega))

theorem Kernel.push_framed (c : Machine) :
    Framed (K.frame (c.reg .rsp)) (K.fpstate (c.reg .rsp)) c (K.push c) := by
  have hp₁ := K.apart (c.reg .rsp)
  have hp₂ : (K.fpstate (c.reg .rsp)-K.frame (c.reg .rsp)).toNat+464 ≤ K.length (c.reg .rsp) :=
    K.inside _
  have hlt := K.length_lt (c.reg .rsp)
  unfold Kernel.push
  dsimp only
  generalize K.fpstate (c.reg .rsp) = p at hp₁ hp₂ ⊢
  generalize K.frame (c.reg .rsp) = f at hp₁ hp₂ ⊢
  generalize K.length (c.reg .rsp) = n at hp₂ hlt ⊢
  set m := (c.mem.fill f n (K.other c)).fill p 464 c.image with hm
  set m₁ := setWords m (f+48#64) (context c) with hm₁
  set m₂ := m₁.setWord (f+232#64) p with hm₂
  have hwords : WordsAt m₁ (f+48#64) (context c) := wordsAt_setWords (show 8*18 ≤ 2^64 by decide)
  -- The two words behind do not meet the context.
  have hword : ∀ k : Word, 8 ≤ k.toNat → k.toNat+8 ≤ 232 →
      (m₂.setWord f K.restorer).word (f+k) = m₁.word (f+k) := by
    intro k hlo hhi
    rw [word_setWord_of_le _ (by rw [show f+k-f = k by bv_omega]; omega)
      (by rw [show f+k-f = k by bv_omega]; omega),hm₂]
    refine word_setWord_of_le _ ?_ ?_ <;>
      rw [show f+k-(f+232#64) = k-232#64 by bv_omega] <;> bv_omega
  refine ⟨fun r => ?_,?_,?_,?_,fun i => ?_⟩
  · rw [BitVec.add_assoc,hword,← BitVec.add_assoc]
    · exact hwords.get (context_get c r)
    · cases r <;> decide
    · cases r <;> decide
  · rw [hword _ (by decide) (by decide)]
    have := hwords.get (show (context c)[16]? = some c.rip from rfl)
    rwa [BitVec.add_assoc] at this
  · rw [hword _ (by decide) (by decide)]
    have := hwords.get (show (context c)[17]? = some c.flags from rfl)
    rwa [BitVec.add_assoc] at this
  · rw [word_setWord_of_le _ (by rw [show f+232#64-f = 232#64 by bv_omega]; decide)
      (by rw [show f+232#64-f = 232#64 by bv_omega]; decide)]
    exact word_setWord (by decide) _ _ _
  · have hi := i.isLt
    have hsum : (p-f+BitVec.ofNat 64 i).toNat = (p-f).toNat+i := add_ofNat_toNat (by omega)
    have hoff : ∀ k : Word, p+BitVec.ofNat 64 i-(f+k) = p-f+BitVec.ofNat 64 i-k := by
      intro k
      bv_omega
    have hctx : (context c).length = 18 := rfl
    have hoff₀ : p+BitVec.ofNat 64 i-f = p-f+BitVec.ofNat 64 i := by bv_omega
    rw [setWord_of_le _ (by rw [hoff₀,hsum]; omega),hm₂,setWord_of_le,hm₁,setWords_of_le,hm,
      fill_ofNat _ _ _ (by omega),if_pos hi,image_val]
    · rw [hoff,hctx]
      generalize p-f+BitVec.ofNat 64 i = x at hsum ⊢
      bv_omega
    · rw [hoff]
      generalize p-f+BitVec.ofNat 64 i = x at hsum ⊢
      bv_omega

theorem Kernel.push_restorer (c : Machine) :
    (K.push c).word (K.frame (c.reg .rsp)) = K.restorer := word_setWord (by decide) _ _ _

end Delivery

end WinterLily.X86
