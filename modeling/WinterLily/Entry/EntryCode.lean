import WinterLily.Base.Cells
import WinterLily.Base.Interception
import WinterLily.Entry.Stack

/-! The assembly of `entry/x86_64.rs`, instruction by instruction: `__call_entry_point` builds the
stack that `callEntryPoint` builds, and `_start` finds on the kernel's stack what `start` finds. -/
namespace WinterLily.Entry
open WinterLily.Memory WinterLily.Stack WinterLily.X86

/-- `__call_entry_point` at `start`. `fini` is `_local_fini`. -/
def callEntryPointCode (fini start : X86.Word) : List Instr :=
  [.op (.pop .rax),
   .op (.pop .r10),
   .op (.mov .r11 (.reg .rdi)),
   .op (.add .r11 (.reg .rcx)),
   .op (.testImm .r11 1#64),
   .jcc .e (start+7#64),
   .op (.push .rax),
   .op (.shl .rcx 3),
   .op (.shl .r9 4),
   .op (.pushSrc (.imm 0#64)),
   .op (.pushSrc (.imm 0#64)),
   .op (.sub .rsp (.reg .r9)),
   -- the auxiliary vector, from label `2:` on
   .op (.test .r9 .r9),
   .jcc .e (start+18#64),
   .op (.lea .r9 (.based .r9 (-16#64))),
   .op (.movupsLoad (.scaled .r8 .r9 1#64)),
   .op (.movupsStore (.scaled .rsp .r9 1#64)),
   .jmp (start+12#64),
   .op (.mov .rbx (.reg .rsp)),
   .op (.pushSrc (.imm 0#64)),
   -- the environment
   .op (.test .rcx .rcx),
   .jcc .e (start+25#64),
   .op (.lea .rcx (.based .rcx (-8#64))),
   .op (.pushSrc (.mem (.scaled .rdx .rcx 1#64))),
   .jmp (start+20#64),
   .op (.mov .r12 (.reg .rsp)),
   .op (.pushSrc (.imm 0#64)),
   .op (.mov .rcx (.reg .rdi)),
   -- the arguments
   .op (.test .rcx .rcx),
   .jcc .e (start+33#64),
   .op (.lea .rcx (.based .rcx (-1#64))),
   .op (.pushSrc (.mem (.scaled .rsi .rcx 8#64))),
   .jmp (start+28#64),
   .op (.push .rdi),
   .op (.mov .rax (.imm 1#64)),
   .op (.lea .rdx (.symbol fini)),
   .jmpReg .r10]

section Loops

variable {code : Code} {s s₀ : Machine} {f F : Frame} {b exit : X86.Word} {l : List Instr}

/-- A loop that pushes cells, with `k` of them to go on the way from `s₀` to the frame `F`. -/
structure Pushing (s₀ : Machine) (base : Reg) (unit : ℕ) (F : Frame) (k : ℕ) (s : Machine) :
    Prop where
  rcx : s.reg .rcx = BitVec.ofNat 64 (unit*k)
  bound : unit*k < 2^64
  frame : ∃ f, OnFrame s f ∧ pushArray (s₀.reg base) k f = F
  reg : Leaves [.rcx,.rsp] s₀ s

lemma ofNat_eq_zero_iff {unit k : ℕ} (hunit : 0 < unit) (h : unit*k < 2^64) :
    BitVec.ofNat 64 (unit*k) = 0#64 ↔ k = 0 := by
  constructor
  · intro hc
    have := congrArg BitVec.toNat hc
    rw [BitVec.toNat_ofNat,Nat.mod_eq_of_lt h,BitVec.toNat_ofNat,Nat.zero_mod] at this
    exact (Nat.mul_eq_zero.mp this).resolve_left hunit.ne'
  · rintro rfl
    rfl

lemma ofNat_mul_succ (unit k : ℕ) :
    BitVec.ofNat 64 (unit*(k+1))+-BitVec.ofNat 64 unit = BitVec.ofNat 64 (unit*k) := by
  rw [Nat.mul_succ,BitVec.ofNat_add,BitVec.add_assoc,BitVec.add_right_neg,BitVec.add_zero]

/-- The loops over the environment and the arguments. -/
lemma reaches_pushArray (base : Reg) (unit scale : ℕ) {k : ℕ} (hbase : base ∉ [Reg.rcx,.rsp])
    (hunit : scale*unit = 8)
    (hl : X86.Loaded code b (.op (.test .rcx .rcx)::.jcc .e exit::
      .op (.lea .rcx (.based .rcx (-BitVec.ofNat 64 unit)))::
      .op (.pushSrc (.mem (.scaled base .rcx (BitVec.ofNat 64 scale))))::.jmp b::l))
    (hs : s.rip = b) (hrcx : s.reg .rcx = BitVec.ofNat 64 (unit*k)) (hk : unit*k < 2^64)
    (hf : OnFrame s f) (hal : Aligned (s.reg base)) :
    ∃ t, Reaches code s t ∧ t.rip = exit ∧ OnFrame t (pushArray (s.reg base) k f) ∧
      Leaves [.rcx,.rsp] s t := by
  have hpos : 0 < unit := Nat.pos_of_ne_zero fun hc => by rw [hc] at hunit; omega
  have hbody : ∀ j u, u.rip = b+2#64 → Pushing s base unit (pushArray (s.reg base) k f) (j+1) u →
      ∃ v, Reaches code u v ∧ v.rip = b ∧ Pushing s base unit (pushArray (s.reg base) k f) j v := by
    intro j u hrip hu
    obtain ⟨g,hg,hgF⟩ := hu.frame
    obtain ⟨h₁,hj⟩ := reaches_ops [.lea .rcx (.based .rcx (-BitVec.ofNat 64 unit)),
      .pushSrc (.mem (.scaled base .rcx (BitVec.ofNat 64 scale)))] 2 rfl hrip (hl.drop 2)
    refine ⟨_,h₁.trans (reaches_jmp (goto_rip _ _) hj),goto_rip _ _,?_⟩
    have hlea : u.reg .rcx+-BitVec.ofNat 64 unit = BitVec.ofNat 64 (unit*j) := by
      rw [hu.rcx,ofNat_mul_succ]
    have hcell : u.reg base+BitVec.ofNat 64 scale*BitVec.ofNat 64 (unit*j) =
        cell (s.reg base) j := by
      rw [hu.reg base hbase,← BitVec.ofNat_mul,← Nat.mul_assoc,hunit]
      rfl
    have hne : base ≠ .rcx := fun hc => hbase (by simp [hc])
    have hpushed : runOps [.lea .rcx (.based .rcx (-BitVec.ofNat 64 unit)),
        .pushSrc (.mem (.scaled base .rcx (BitVec.ofNat 64 scale)))] u =
        (u.set .rcx (BitVec.ofNat 64 (unit*j))).push (g.store (cell (s.reg base) j)) := by
      rw [← hg.cells _ (hal.cell j),← hcell,← hlea]
      simp [hne]
    rw [hpushed]
    constructor
    case rcx => simp
    case bound => exact lt_of_le_of_lt (Nat.mul_le_mul_left _ (Nat.le_succ j)) hu.bound
    case frame =>
      have hset : OnFrame (u.set .rcx (BitVec.ofNat 64 (unit*j))) g := hg.congr (by simp) (by simp)
      exact ⟨_,((hset.push _).goto _).goto _,hgF⟩
    case reg =>
      intro r hr
      rw [List.mem_cons,List.mem_singleton,not_or] at hr
      simp only [goto_reg,push_reg_of_ne _ _ hr.2,set_reg_of_ne _ _ _ hr.1]
      exact hu.reg r (by simp [hr])
  obtain ⟨t,hst,hrip,ht⟩ := reaches_counted (k := k) hl
    (fun j u hu => by rw [hu.rcx]; exact ofNat_eq_zero_iff hpos hu.bound)
    (fun j u v hk hu => ⟨(hk.reg _ (by simp)).trans hu.rcx,hu.bound,
      hu.frame.imp fun g hg => ⟨hg.1.keeps hk (by simp),hg.2⟩,hu.reg.trans hk.leaves⟩)
    hbody hs ⟨hrcx,hk,⟨f,hf,rfl⟩,Leaves.refl⟩
  obtain ⟨g,hg,rfl⟩ := ht.frame
  exact ⟨t,hst,hrip,hg,ht.reg⟩

/-- The loop over the auxiliary vector, with `k` entries to move on the way to the store `M`. -/
structure MovingAux (s₀ : Machine) (M : Store) (k : ℕ) (s : Machine) : Prop where
  r9 : s.reg .r9 = BitVec.ofNat 64 (16*k)
  bound : 16*k < 2^64
  frame : ∃ m, OnFrame s ⟨s₀.reg .rsp,m⟩ ∧ copyAux (s₀.reg .r8) (s₀.reg .rsp) k m = M
  reg : Leaves [.r9] s₀ s

lemma reaches_copyAux {k : ℕ}
    (hl : X86.Loaded code b (.op (.test .r9 .r9)::.jcc .e exit::
      .op (.lea .r9 (.based .r9 (-16#64)))::.op (.movupsLoad (.scaled .r8 .r9 1#64))::
      .op (.movupsStore (.scaled .rsp .r9 1#64))::.jmp b::l))
    (hs : s.rip = b) (hr9 : s.reg .r9 = BitVec.ofNat 64 (16*k)) (hk : 16*k < 2^64)
    (hf : OnFrame s f) (hal : Aligned (s.reg .r8)) :
    ∃ t, Reaches code s t ∧ t.rip = exit ∧
      OnFrame t ⟨f.rsp,copyAux (s.reg .r8) f.rsp k f.store⟩ ∧
      Leaves [.r9] s t := by
  have hrsp := hf.rsp
  have hbody : ∀ j u, u.rip = b+2#64 →
      MovingAux s (copyAux (s.reg .r8) (s.reg .rsp) k f.store) (j+1) u →
      ∃ v, Reaches code u v ∧ v.rip = b ∧
        MovingAux s (copyAux (s.reg .r8) (s.reg .rsp) k f.store) j v := by
    intro j u hrip hu
    obtain ⟨m,hm,hmM⟩ := hu.frame
    obtain ⟨h₁,hj⟩ := reaches_ops ([.lea .r9 (.based .r9 (-16#64))]++
      [.movupsLoad (.scaled .r8 .r9 1#64),.movupsStore (.scaled .rsp .r9 1#64)]) 3 rfl hrip
      (hl.drop 2)
    refine ⟨_,h₁.trans (reaches_jmp (goto_rip _ _) hj),goto_rip _ _,?_⟩
    have hlea : u.reg .r9+-16#64 = BitVec.ofNat 64 (16*j) := by rw [hu.r9,ofNat_mul_succ]
    have hset : runOps [.lea .r9 (.based .r9 (-16#64))] u = u.set .r9 (BitVec.ofNat 64 (16*j)) := by
      rw [← hlea]
      rfl
    rw [runOps_append,hset]
    have hoff : ∀ a : X86.Word, a+1#64*BitVec.ofNat 64 (16*j) = cell a (2*j) := fun a => by
      rw [BitVec.one_mul,cell,← Nat.mul_assoc]
    have hmem := movups_mem (u.set .r9 (BitVec.ofNat 64 (16*j))) (.scaled .r8 .r9 1#64)
      (.scaled .rsp .r9 1#64)
    have hreg : ∀ r, (runOps [.movupsLoad (.scaled .r8 .r9 1#64),
        .movupsStore (.scaled .rsp .r9 1#64)] (u.set .r9 (BitVec.ofNat 64 (16*j)))).reg r =
        (u.set .r9 (BitVec.ofNat 64 (16*j))).reg r := fun r =>
      runOps_leaves (List.all_eq_true.mpr (by simp [Op.writes])) _ r List.not_mem_nil
    generalize runOps [.movupsLoad (.scaled .r8 .r9 1#64),.movupsStore (.scaled .rsp .r9 1#64)]
      (u.set .r9 (BitVec.ofNat 64 (16*j))) = v at hmem hreg ⊢
    simp only [ea_scaled,set_reg_self,set_mem,hoff,set_reg_of_ne _ _ _ (show Reg.r8 ≠ .r9 by decide),
      set_reg_of_ne _ _ _ (show Reg.rsp ≠ .r9 by decide),hu.reg .r8 (by decide),
      hu.reg .rsp (by decide)] at hmem
    constructor
    case r9 => rw [goto_reg,goto_reg,hreg,set_reg_self]
    case bound => have := hu.bound; omega
    case frame =>
      have hv := hm.copy (hal.cell (2*j)) ((hrsp ▸ hf.aligned).cell (2*j))
        ((hreg .rsp).trans (by simp)) hmem
      rw [← cell_one,← cell_one,cell_cell,cell_cell] at hv
      exact ⟨_,(hv.goto _).goto _,hmM⟩
    case reg =>
      intro r hr
      rw [goto_reg,goto_reg,hreg,set_reg_of_ne _ _ _ (by simpa using hr),hu.reg r hr]
  obtain ⟨t,hst,hrip,ht⟩ := reaches_counted (k := k) hl
    (fun j u hu => by rw [hu.r9]; exact ofNat_eq_zero_iff (by decide) hu.bound)
    (fun j u v hk hu => ⟨(hk.reg _ (by simp)).trans hu.r9,hu.bound,
      hu.frame.imp fun g hg => ⟨hg.1.keeps hk (by simp),hg.2⟩,hu.reg.trans hk.leaves⟩)
    hbody hs ⟨hr9,hk,⟨f.store,by rw [hrsp]; exact hf,rfl⟩,Leaves.refl⟩
  obtain ⟨m,hm,hmM⟩ := ht.frame
  rw [← hrsp,← hmM]
  exact ⟨t,hst,hrip,hm,ht.reg⟩

end Loops

section Blocks

variable {code : Code} {s : Machine} {f : Frame} {fini start : X86.Word}
  (h : X86.Loaded code start (callEntryPointCode fini start))
include h

/-- Up to the `push rax` that aligns the stack. -/
lemma reaches_evened (hs : s.rip = start) (hf : OnFrame s f) :
    ∃ t, Reaches code s t ∧ t.rip = start+7#64 ∧
      OnFrame t (if (s.reg .rdi+s.reg .rcx) &&& 1#64 = 0#64 then ⟨f.rsp+16#64,f.store⟩
        else Frame.push ⟨f.rsp+16#64,f.store⟩ (f.store f.rsp)) ∧
      t.reg .r10 = f.store (f.rsp+8#64) ∧
      Leaves [.rax,.r10,.r11,.rsp] s t := by
  obtain ⟨h₁,hj⟩ := reaches_ops [.pop .rax,.pop .r10,.mov .r11 (.reg .rdi),.add .r11 (.reg .rcx),
    .testImm .r11 1#64] 5 rfl hs h
  have hw₀ : s.mem.word (s.reg .rsp) = f.store f.rsp := by rw [hf.rsp,hf.cells _ hf.aligned]
  have hw₁ : s.mem.word (s.reg .rsp+8#64) = f.store (f.rsp+8#64) := by
    rw [hf.rsp,hf.cells _ (hf.aligned.add (aligned_mul 1))]
  have hal : Aligned (f.rsp+16#64) := hf.aligned.add (aligned_mul 2)
  set t := runOps [.pop .rax,.pop .r10,.mov .r11 (.reg .rdi),.add .r11 (.reg .rcx),
    .testImm .r11 1#64] s with ht
  have hrax : t.reg .rax = f.store f.rsp := by rw [← hw₀]; simp [ht]
  have hr10 : t.reg .r10 = f.store (f.rsp+8#64) := by rw [← hw₁]; simp [ht]
  have hzf : t.zf = ((s.reg .rdi+s.reg .rcx) &&& 1#64 == 0#64) := by simp [ht]
  have htf : OnFrame t ⟨f.rsp+16#64,f.store⟩ :=
    hf.move (by rw [← hf.rsp]; simp [ht,BitVec.add_assoc]) hal (by simp [ht])
  have hreg : Leaves [.rax,.r10,.r11,.rsp] s t := runOps_leaves rfl s
  have h₂ := h₁.trans (reaches_jcc (goto_rip _ _) hj)
  rw [holds_e,goto_zf,hzf,goto_goto] at h₂
  by_cases hev : (s.reg .rdi+s.reg .rcx) &&& 1#64 = 0#64
  · rw [if_pos hev]
    rw [hev] at h₂
    exact ⟨_,h₂,by simp,htf.goto _,hr10,hreg⟩
  · rw [if_neg hev]
    rw [if_neg (by simpa using hev),BitVec.add_assoc] at h₂
    obtain ⟨h₃,-⟩ := reaches_ops (s := t.goto (start+6#64)) [.push .rax] 1 rfl rfl (h.drop 6)
    refine ⟨_,h₂.trans h₃,by simp [BitVec.add_assoc],?_,?_,fun r hr => ?_⟩
    · rw [← hrax]
      exact ((htf.goto _).push _).goto _
    · rw [goto_reg,← hr10]
      simp
    · rw [goto_reg,← hreg r hr]
      have hne : r ≠ .rsp := fun hc => hr (by simp [hc])
      simp [hne]

/-- The room for the auxiliary vector below its terminator. -/
lemma reaches_room (hs : s.rip = start+7#64) (hf : OnFrame s f) :
    ∃ t, Reaches code s t ∧ t.rip = start+12#64 ∧
      OnFrame t ⟨((f.push 0#64).push 0#64).rsp-s.reg .r9 <<< 4,((f.push 0#64).push 0#64).store⟩ ∧
      t.reg .rcx = s.reg .rcx <<< 3 ∧ t.reg .r9 = s.reg .r9 <<< 4 ∧
      Leaves [.rcx,.r9,.rsp] s t := by
  obtain ⟨h₁,-⟩ := reaches_ops ([.shl .rcx 3,.shl .r9 4]++
    [.pushSrc (.imm 0#64),.pushSrc (.imm 0#64),.sub .rsp (.reg .r9)]) 5 rfl hs (h.drop 7)
  refine ⟨_,h₁,by simp [BitVec.add_assoc],?_,by simp,by simp,(runOps_leaves rfl s).goto _⟩
  have hk : Keeps [.rcx,.r9] s (runOps [.shl .rcx 3,.shl .r9 4] s) := runOps_keeps rfl
  have hr9 : (runOps [.shl .rcx 3,.shl .r9 4] s).reg .r9 = s.reg .r9 <<< 4 := by simp
  rw [runOps_append]
  generalize runOps [.shl .rcx 3,.shl .r9 4] s = t at hk hr9
  have hpush := ((hf.keeps hk (by decide)).push 0#64).push 0#64
  refine (hpush.move ?_ (hpush.aligned.sub (aligned_shl _)) (by simp)).goto _
  rw [← hpush.rsp,← hr9]
  simp

lemma reaches_environment (hs : s.rip = start+18#64) (hf : OnFrame s f) :
    ∃ t, Reaches code s t ∧ t.rip = start+20#64 ∧ OnFrame t (f.push 0#64) ∧ t.reg .rbx = f.rsp ∧
      Leaves [.rbx,.rsp] s t := by
  obtain ⟨h₁,-⟩ := reaches_ops [.mov .rbx (.reg .rsp),.pushSrc (.imm 0#64)] 2 rfl hs (h.drop 18)
  have hset : OnFrame (s.set .rbx (s.reg .rsp)) f := hf.congr (by simp) (by simp)
  exact ⟨_,h₁,by simp [BitVec.add_assoc],(hset.push _).goto _,by rw [← hf.rsp]; simp,
    (runOps_leaves rfl s).goto _⟩

lemma reaches_arguments (hs : s.rip = start+25#64) (hf : OnFrame s f) :
    ∃ t, Reaches code s t ∧ t.rip = start+28#64 ∧ OnFrame t (f.push 0#64) ∧ t.reg .r12 = f.rsp ∧
      t.reg .rcx = s.reg .rdi ∧ Leaves [.r12,.rcx,.rsp] s t := by
  obtain ⟨h₁,-⟩ := reaches_ops [.mov .r12 (.reg .rsp),.pushSrc (.imm 0#64),.mov .rcx (.reg .rdi)] 3
    rfl hs (h.drop 25)
  have hset : OnFrame (s.set .r12 (s.reg .rsp)) f := hf.congr (by simp) (by simp)
  exact ⟨_,h₁,by simp [BitVec.add_assoc],((hset.push 0#64).congr (by simp) (by simp)).goto _,
    by rw [← hf.rsp]; simp,by simp,(runOps_leaves rfl s).goto _⟩

lemma reaches_jump (hs : s.rip = start+33#64) (hf : OnFrame s f) :
    ∃ t, Reaches code s t ∧ t.rip = s.reg .r10 ∧ OnFrame t (f.push (s.reg .rdi)) ∧
      t.reg .rax = 1#64 ∧ t.reg .rdx = fini ∧
      Leaves [.rax,.rdx,.rsp] s t := by
  obtain ⟨h₁,hj⟩ := reaches_ops [.push .rdi,.mov .rax (.imm 1#64),.lea .rdx (.symbol fini)] 3 rfl hs
    (h.drop 33)
  exact ⟨_,h₁.trans (reaches_jmpReg (goto_rip _ _) hj),by simp,
    (((hf.push _).congr (by simp) (by simp)).goto _).goto _,by simp,by simp,
    (runOps_leaves rfl s).goto _⟩

end Blocks

/-- The machine jumps to the entry point as the model does. -/
structure Enters (fini : X86.Word) (e : Entered) (t : Machine) : Prop where
  rip : t.rip = e.target
  frame : OnFrame t e.frame
  rbx : t.reg .rbx = e.rbx
  r12 : t.reg .r12 = e.r12
  rax : t.reg .rax = 1#64
  rdx : t.reg .rdx = fini

lemma ofNat_shl_div (a : X86.Word) {n : ℕ} (hn : n < 64) :
    a <<< n = BitVec.ofNat 64 (2^n*((a <<< n).toNat/2^n)) ∧ 2^n*((a <<< n).toNat/2^n) < 2^64 := by
  have hdvd : 2^n ∣ (a <<< n).toNat := by
    rw [BitVec.toNat_shiftLeft,Nat.shiftLeft_eq]
    exact (Nat.dvd_mod_iff (pow_dvd_pow 2 hn.le)).mpr (Nat.dvd_mul_left _ _)
  rw [Nat.mul_div_cancel' hdvd,BitVec.ofNat_toNat,BitVec.setWidth_eq]
  exact ⟨rfl,(a <<< n).isLt⟩

/-- `__call_entry_point` does what `callEntryPoint` says, whatever the counts and the stack are. -/
theorem callEntryPointCode_enters {code : Code} {s : Machine} {f : Frame} {fini start : X86.Word}
    (h : X86.Loaded code start (callEntryPointCode fini start)) (hs : s.rip = start)
    (hf : OnFrame s f) (hargv : Aligned (s.reg .rsi)) (henvp : Aligned (s.reg .rdx))
    (hauxv : Aligned (s.reg .r8)) :
    ∃ t, Reaches code s t ∧ Enters fini (callEntryPoint (s.reg .rdi) (s.reg .rsi) (s.reg .rdx)
      (s.reg .rcx) (s.reg .r8) (s.reg .r9) f) t := by
  obtain ⟨haux,hauxlt⟩ := ofNat_shl_div (s.reg .r9) (show 4 < 64 by decide)
  obtain ⟨henv,henvlt⟩ := ofNat_shl_div (s.reg .rcx) (show 3 < 64 by decide)
  obtain ⟨t₁,hr₁,hp₁,hf₁,hr10,hk₁⟩ := reaches_evened h hs hf
  obtain ⟨t₂,hr₂,hp₂,hf₂,hrcx,hr9,hk₂⟩ := reaches_room h hp₁ hf₁
  rw [hk₁ .r9 (by decide)] at hr9 hf₂
  rw [hk₁ .rcx (by decide)] at hrcx
  have hr8 : t₂.reg .r8 = s.reg .r8 := by rw [hk₂ _ (by decide),hk₁ _ (by decide)]
  obtain ⟨t₃,hr₃,hp₃,hf₃,hk₃⟩ := reaches_copyAux (h.drop 12) hp₂ (hr9.trans haux) hauxlt hf₂
    (hr8 ▸ hauxv)
  obtain ⟨t₄,hr₄,hp₄,hf₄,hrbx,hk₄⟩ := reaches_environment h hp₃ hf₃
  have hkeep₄ : Leaves [.rcx,.r9,.rbx,.rsp] t₁ t₄ :=
    ((hk₂.mono (by decide)).trans (hk₃.mono (by decide))).trans (hk₄.mono (by decide))
  have hrdx : t₄.reg .rdx = s.reg .rdx := by rw [hkeep₄ _ (by decide),hk₁ _ (by decide)]
  have hrcx₄ : t₄.reg .rcx = s.reg .rcx <<< 3 := by rw [hk₄ _ (by decide),hk₃ _ (by decide),hrcx]
  obtain ⟨t₅,hr₅,hp₅,hf₅,hk₅⟩ := reaches_pushArray .rdx 8 1 (by decide) rfl (h.drop 20) hp₄
    (hrcx₄.trans henv) henvlt hf₄ (hrdx ▸ henvp)
  obtain ⟨t₆,hr₆,hp₆,hf₆,hr12,hrcx₆,hk₆⟩ := reaches_arguments h hp₅ hf₅
  have hkeep₆ : Leaves [.r12,.rcx,.r9,.rbx,.rsp] t₁ t₆ :=
    ((hkeep₄.mono (by decide)).trans (hk₅.mono (by decide))).trans (hk₆.mono (by decide))
  have hrsi : t₆.reg .rsi = s.reg .rsi := by rw [hkeep₆ _ (by decide),hk₁ _ (by decide)]
  have hrdi : t₆.reg .rdi = s.reg .rdi := by rw [hkeep₆ _ (by decide),hk₁ _ (by decide)]
  have hrcx₆ : t₆.reg .rcx = BitVec.ofNat 64 (1*(s.reg .rdi).toNat) := by
    rw [hrcx₆,← hk₆ .rdi (by decide),hrdi,Nat.one_mul,BitVec.ofNat_toNat,BitVec.setWidth_eq]
  obtain ⟨t₇,hr₇,hp₇,hf₇,hk₇⟩ := reaches_pushArray .rsi 1 8 (by decide) rfl (h.drop 28) hp₆ hrcx₆
    (by rw [Nat.one_mul]; exact (s.reg .rdi).isLt) hf₆ (hrsi ▸ hargv)
  obtain ⟨t₈,hr₈,hp₈,hf₈,hrax,hfini,hk₈⟩ := reaches_jump h hp₇ hf₇
  have hkeep₈ : Leaves [.rax,.rdx,.rcx,.rsp] t₆ t₈ :=
    (hk₇.mono (by decide)).trans (hk₈.mono (by decide))
  rw [hk₇ .rdi (by decide),hrdi,hrsi,hrdx,hr8] at hf₈
  refine ⟨t₈,((((((hr₁.trans hr₂).trans hr₃).trans hr₄).trans hr₅).trans hr₆).trans hr₇).trans hr₈,
    ?_,hf₈,?_,?_,hrax,hfini⟩
  · rw [hp₈,hk₇ _ (by decide),hkeep₆ _ (by decide),hr10]
    rfl
  · rw [hkeep₈ _ (by decide),hk₆ _ (by decide),hk₅ _ (by decide),hrbx]
    rfl
  · rw [hkeep₈ _ (by decide),hr12,hrdx,hr8]
    rfl

/-- Two arguments, one variable and the three entries of the auxiliary vector, for an entry point at
`0x400`. -/
def enteringMachine : Machine where
  rip := 0x100#64
  reg := fun
    | .rdi => 2#64
    | .rsi => 0x9000#64
    | .rdx => 0xA000#64
    | .rcx => 1#64
    | .r8 => 0xB000#64
    | .r9 => 3#64
    | .rsp => 0x8008#64
    | _ => 0#64
  fsBase := 0#64
  zf := false
  cf := false
  fpu := fun _ => 0#8
  mem := Mem.setWord (fun _ => 0#8) 0x8010#64 0x400#64

def enteringCode : Code := fun a => (callEntryPointCode 0x300#64 0x100#64)[(a-0x100#64).toNat]?

theorem callEntryPointCode_enters_three : ∃ t, Reaches enteringCode enteringMachine t ∧
    t.rip = 0x400#64 ∧ t.reg .rsp = 0x7FA0#64 ∧ t.reg .rbx = 0x7FD0#64 ∧ t.reg .r12 = 0x7FC0#64 := by
  have h : X86.Loaded enteringCode 0x100#64 (callEntryPointCode 0x300#64 0x100#64) :=
    ⟨rfl,rfl,rfl,rfl,rfl,rfl,rfl,rfl,rfl,rfl,rfl,rfl,rfl,rfl,rfl,rfl,rfl,rfl,rfl,rfl,rfl,rfl,rfl,rfl,
      rfl,rfl,rfl,rfl,rfl,rfl,rfl,rfl,rfl,rfl,rfl,rfl,rfl,trivial⟩
  have hf : OnFrame enteringMachine ⟨0x8008#64,enteringMachine.mem.word⟩ :=
    ⟨rfl,by unfold Aligned; decide,fun _ _ => rfl⟩
  obtain ⟨t,hrun,ht⟩ := callEntryPointCode_enters h rfl hf (by unfold Aligned; decide)
    (by unfold Aligned; decide) (by unfold Aligned; decide)
  refine ⟨t,hrun,?_,?_,?_,?_⟩
  · rw [ht.rip]
    exact word_setWord (by decide) _ _ _
  · rw [ht.frame.rsp]
    rfl
  · rw [ht.rbx]
    rfl
  · rw [ht.r12]
    rfl

def stackDisplacement : X86.Word := 0x8000#64

def stackSize : X86.Word := 0x80000#64

/-- `_start` at `start`. `MMAP_PROT` allows reading and writing, `MMAP_FLAGS` is a private anonymous
mapping for a stack that grows down. -/
def startCode (rustEntry start : X86.Word) : List Instr :=
  [.op (.pop .r12),
   .op (.xor .rbp (.reg .rbp)),
   .op (.lea .r13 (.based .rsp 0#64)),
   .op (.lea .r14 (.indexed .rsp .r12 8#64 8#64)),
   .op (.mov .r15 (.reg .r14)),
   -- `_start._find_auxv`
   .op (.mov .rax (.mem (.based .r15 0#64))),
   .op (.lea .r15 (.based .r15 8#64)),
   .op (.test .rax .rax),
   .jcc .ne (start+5#64),
   -- `_start._setup_stack`
   .op (.mov .rdi (.reg .rsp)),
   .op (.add .rdi (.imm 0xFFFF#64)),
   .op (.and .rdi (.imm 0xFFFFFFFFFFFF0000#64)),
   .op (.add .rdi (.imm stackDisplacement)),
   .op (.mov .rsi (.imm stackSize)),
   .op (.mov .rdx (.imm 3#64)),
   .op (.mov .r10 (.imm 0x20122#64)),
   .op (.mov .r8 (.imm (-1#64))),
   .op (.mov .r9 (.imm 0#64)),
   .op (.mov .rax (.imm 9#64)),
   .syscall,
   .op (.mov .rsp (.reg .rax)),
   .op (.mov .r8 (.reg .rax)),
   .op (.add .rsp (.imm stackSize)),
   .op (.mov .rdi (.reg .r12)),
   .op (.mov .rsi (.reg .r13)),
   .op (.mov .rdx (.reg .r14)),
   .op (.mov .rcx (.reg .r15)),
   .call rustEntry,
   .op (.mov32 .rdi (.reg .rax)),
   .op (.mov32 .rax (.imm 60#64)),
   .syscall,
   .ud2]

section Start

variable {code : Code} {s t : Machine} {m : Store} {rustEntry start : X86.Word} {regs : StartRegs}
  (h : X86.Loaded code start (startCode rustEntry start))
include h

lemma reaches_findAuxv {fuel : ℕ} {a : X86.Word} (hs : s.rip = start+5#64)
    (hcells : ∀ x, Aligned x → s.mem.word x = m x) (hal : Aligned (s.reg .r15))
    (ha : findAuxv m fuel (s.reg .r15) = some a) :
    ∃ t, Reaches code s t ∧ t.rip = start+9#64 ∧ Keeps [.rax,.r15] s t ∧ t.reg .r15 = a := by
  induction fuel generalizing s with
  | zero => simp [findAuxv] at ha
  | succ fuel ih =>
    obtain ⟨h₁,hj⟩ := reaches_ops [.mov .rax (.mem (.based .r15 0#64)),
      .lea .r15 (.based .r15 8#64),.test .rax .rax] 3 rfl hs (h.drop 5)
    have hk : Keeps [.rax,.r15] s (runOps [.mov .rax (.mem (.based .r15 0#64)),
      .lea .r15 (.based .r15 8#64),.test .rax .rax] s) := runOps_keeps rfl
    have hr15 : (runOps [.mov .rax (.mem (.based .r15 0#64)),.lea .r15 (.based .r15 8#64),
      .test .rax .rax] s).reg .r15 = s.reg .r15+8#64 := by simp
    have hzf : (runOps [.mov .rax (.mem (.based .r15 0#64)),.lea .r15 (.based .r15 8#64),
        .test .rax .rax] s).zf = (m (s.reg .r15) == 0#64) := by
      rw [← hcells _ hal]
      simp
    have h₂ := h₁.trans (reaches_jcc (goto_rip _ _) hj)
    rw [holds_ne,goto_zf,hzf,goto_goto] at h₂
    generalize runOps [.mov .rax (.mem (.based .r15 0#64)),.lea .r15 (.based .r15 8#64),
      .test .rax .rax] s = t at hk hr15 h₂
    rw [findAuxv] at ha
    by_cases hz : m (s.reg .r15) = 0#64
    · rw [if_pos hz] at ha
      rw [hz] at h₂
      exact ⟨_,h₂,by simp [BitVec.add_assoc],hk.goto _,hr15.trans (Option.some.inj ha)⟩
    · rw [if_neg hz,← hr15] at ha
      rw [if_pos (by simpa using hz)] at h₂
      obtain ⟨u,htu,hrip,hku,hu⟩ := ih (s := t.goto (start+5#64)) (goto_rip _ _)
        (fun x hx => by rw [goto_mem,hk.mem,hcells x hx])
        (by rw [goto_reg,hr15]; exact hal.add (aligned_mul 1)) ha
      exact ⟨u,h₂.trans htu,hrip,(hk.goto _).trans hku,hu⟩

/-- The four vectors of the kernel's stack. -/
lemma reaches_vectors {fuel : ℕ} {f : Frame} (hs : s.rip = start) (hf : OnFrame s f)
    (hregs : Entry.start f.store fuel f.rsp = some regs) :
    ∃ t, Reaches code s t ∧ t.rip = start+9#64 ∧ t.mem = s.mem ∧ t.reg .rsp = f.rsp+8#64 ∧
      t.reg .r12 = regs.r12 ∧ t.reg .r13 = regs.r13 ∧ t.reg .r14 = regs.r14 ∧
      t.reg .r15 = regs.r15 := by
  obtain ⟨h₁,-⟩ := reaches_ops [.pop .r12,.xor .rbp (.reg .rbp),.lea .r13 (.based .rsp 0#64),
    .lea .r14 (.indexed .rsp .r12 8#64 8#64),.mov .r15 (.reg .r14)] 5 rfl hs h
  rw [Entry.start,Option.map_eq_some_iff] at hregs
  obtain ⟨a,ha,rfl⟩ := hregs
  have hw : s.mem.word f.rsp = f.store f.rsp := hf.cells _ hf.aligned
  set t := runOps [.pop .r12,.xor .rbp (.reg .rbp),.lea .r13 (.based .rsp 0#64),
    .lea .r14 (.indexed .rsp .r12 8#64 8#64),.mov .r15 (.reg .r14)] s with ht
  have hmem : t.mem = s.mem := by simp [ht]
  have hrsp : t.reg .rsp = f.rsp+8#64 := by simp [ht,hf.rsp]
  have hr12 : t.reg .r12 = f.store f.rsp := by simp [ht,hf.rsp,hw]
  have hr13 : t.reg .r13 = f.rsp+8#64 := by simp [ht,hf.rsp]
  have hr14 : t.reg .r14 = f.rsp+8#64+8#64*f.store f.rsp+8#64 := by simp [ht,hf.rsp,hw]
  have hr15 : t.reg .r15 = f.rsp+8#64+8#64*f.store f.rsp+8#64 := by simp [ht,hf.rsp,hw]
  have hal : Aligned (t.reg .r15) := by
    rw [hr15]
    exact ((hf.aligned.add (aligned_mul 1)).add (aligned_scaled _)).add (aligned_mul 1)
  obtain ⟨u,htu,hrip,hk,hu⟩ := reaches_findAuxv h (s := t.goto (start+5#64)) (goto_rip _ _)
    (fun x hx => by rw [goto_mem,hmem,hf.cells x hx]) hal (by rw [goto_reg,hr15]; exact ha)
  exact ⟨u,h₁.trans htu,hrip,hk.mem.trans hmem,(hk.reg _ (by decide)).trans hrsp,
    (hk.reg _ (by decide)).trans hr12,(hk.reg _ (by decide)).trans hr13,
    (hk.reg _ (by decide)).trans hr14,hu⟩

/-- The arguments of `mmap`: the hint is past the kernel's stack pointer, rounded up to 64 KiB. -/
structure AsksStack (code : Code) (rsp : X86.Word) (t : Machine) : Prop where
  syscall : code t.rip = some .syscall
  rax : t.reg .rax = 9#64
  rdi : t.reg .rdi = ((rsp+8#64+0xFFFF#64) &&& 0xFFFFFFFFFFFF0000#64)+stackDisplacement
  rsi : t.reg .rsi = stackSize
  rdx : t.reg .rdx = 3#64
  r10 : t.reg .r10 = 0x20122#64
  r8 : t.reg .r8 = -1#64
  r9 : t.reg .r9 = 0#64

lemma reaches_asksStack {rsp : X86.Word} (hs : s.rip = start+9#64)
    (hrsp : s.reg .rsp = rsp+8#64) :
    ∃ t, Reaches code s t ∧ t.rip = start+19#64 ∧ AsksStack code rsp t ∧
      Keeps [.rdi,.rsi,.rdx,.r10,.r8,.r9,.rax] s t := by
  obtain ⟨h₁,hcall⟩ := reaches_ops ([.mov .rdi (.reg .rsp),.add .rdi (.imm 0xFFFF#64),
    .and .rdi (.imm 0xFFFFFFFFFFFF0000#64),.add .rdi (.imm stackDisplacement)]++
    [.mov .rsi (.imm stackSize),.mov .rdx (.imm 3#64),.mov .r10 (.imm 0x20122#64),
    .mov .r8 (.imm (-1#64)),.mov .r9 (.imm 0#64),.mov .rax (.imm 9#64)]) 10 rfl hs (h.drop 9)
  refine ⟨_,h₁,(goto_rip _ _).trans (by bv_omega),?_,(runOps_keeps rfl).goto _⟩
  have hrdi : (runOps [.mov .rdi (.reg .rsp),.add .rdi (.imm 0xFFFF#64),
      .and .rdi (.imm 0xFFFFFFFFFFFF0000#64),.add .rdi (.imm stackDisplacement)] s).reg .rdi =
      ((rsp+8#64+0xFFFF#64) &&& 0xFFFFFFFFFFFF0000#64)+stackDisplacement := by
    rw [← hrsp]
    rfl
  rw [runOps_append]
  generalize runOps [.mov .rdi (.reg .rsp),.add .rdi (.imm 0xFFFF#64),
    .and .rdi (.imm 0xFFFFFFFFFFFF0000#64),.add .rdi (.imm stackDisplacement)] s = t at hrdi
  exact ⟨hcall.1,by simp,by simp [hrdi],by simp,by simp,by simp,by simp,by simp⟩

/-- `__rust_entry` is called on the new stack, with the vectors that `start` found. -/
structure CallsRustEntry (code : Code) (rustEntry ret base : X86.Word) (regs : StartRegs)
    (m : Mem 64) (u : Machine) : Prop where
  rip : u.rip = rustEntry
  argc : u.reg .rdi = regs.r12
  argv : u.reg .rsi = regs.r13
  envp : u.reg .rdx = regs.r14
  auxv : u.reg .rcx = regs.r15
  stackAddr : u.reg .r8 = base
  rsp : u.reg .rsp = base+stackSize-8#64
  mem : u.mem = m.setWord (base+stackSize-8#64) ret
  exits : ∀ v, Returns 0 u v → ∃ w, Reaches code v w ∧ code w.rip = some .syscall ∧
    w.reg .rax = 60#64 ∧ w.reg .rdi = ((v.reg .rax).setWidth 32).setWidth 64

lemma reaches_rustEntry (hs : s.rip = start+20#64) (hr12 : s.reg .r12 = regs.r12)
    (hr13 : s.reg .r13 = regs.r13) (hr14 : s.reg .r14 = regs.r14) (hr15 : s.reg .r15 = regs.r15) :
    ∃ t, Reaches code s t ∧
      CallsRustEntry code rustEntry (start+28#64) (s.reg .rax) regs s.mem t := by
  obtain ⟨h₁,hcall⟩ := reaches_ops [.mov .rsp (.reg .rax),.mov .r8 (.reg .rax),
    .add .rsp (.imm stackSize),.mov .rdi (.reg .r12),.mov .rsi (.reg .r13),.mov .rdx (.reg .r14),
    .mov .rcx (.reg .r15)] 7 rfl hs (h.drop 20)
  have h₂ := h₁.trans (reaches_call (goto_rip _ _) hcall)
  rw [show start+20#64+7#64+1#64 = start+28#64 by bv_omega] at h₂
  refine ⟨_,h₂,rfl,by simp [hr12],by simp [hr13],by simp [hr14],by simp [hr15],by simp,by simp,
    by simp [Machine.push],fun v hv => ?_⟩
  have hret : v.rip = start+28#64 := by
    rw [hv.rip]
    exact push_word _ _
  obtain ⟨h₃,hexit⟩ := reaches_ops [.mov32 .rdi (.reg .rax),.mov32 .rax (.imm 60#64)] 2 rfl hret
    (h.drop 28)
  exact ⟨_,h₃,hexit.1,by simp,by simp⟩

end Start

/-- `mmap` gave the stack at `base`, among the addresses that a process has, and left other memory
alone. -/
structure StackMapped (m m' : Mem 64) (base : X86.Word) : Prop where
  paged : base.toNat % 4096 = 0
  user : base.toNat+stackSize.toNat ≤ 2^47
  others : ∀ x, stackSize.toNat ≤ (x-base).toNat → m' x = m x

/-- From the stack as the kernel lays it out, `_start` asks for a stack and, if it gets one, calls
`__rust_entry` on it with the kernel's vectors, wherever the stack is. What `mmap` returned is not
looked at, so that a failure is not noticed. -/
theorem startCode_calls {code : Code} {s : Machine} {f : Frame} {rustEntry start : X86.Word}
    {args env aux : List X86.Word} (h : X86.Loaded code start (startCode rustEntry start))
    (hs : s.rip = start) (hf : OnFrame s f) (hstack : KernelStack f.store f.rsp args env aux) :
    ∃ t, Reaches code s t ∧ AsksStack code f.rsp t ∧ t.mem = s.mem ∧
      ∀ (base : X86.Word) (m : Mem 64), StackMapped s.mem m base →
        ∃ u, Reaches code ((t.entered.set .rax base).setMem m) u ∧
          CallsRustEntry code rustEntry (start+28#64) base ⟨BitVec.ofNat 64 args.length,
            cell f.rsp 1,cell f.rsp (args.length+2),
            cell f.rsp (args.length+2+(env.length+1))⟩ m u ∧
          (u.reg .rsp).toNat % 16 = 8 ∧
          ∀ x, stackSize.toNat ≤ (x-base).toNat → u.mem x = s.mem x := by
  have hsize := hstack.size
  have hargc : (BitVec.ofNat 64 args.length).toNat = args.length := by
    rw [BitVec.toNat_ofNat]
    exact Nat.mod_eq_of_lt (by omega)
  have hregs := start_eq hstack.laidOut hargc hstack.nonNull (Nat.lt_succ_self env.length)
  obtain ⟨p,hsp,hprip,hpmem,hprsp,hr12,hr13,hr14,hr15⟩ := reaches_vectors h hs hf hregs
  obtain ⟨t,hpt,htrip,hask,hk⟩ := reaches_asksStack h hprip hprsp
  refine ⟨t,hsp.trans hpt,hask,hk.mem.trans hpmem,fun base m hmap => ?_⟩
  have hkeep : ∀ r ∈ [Reg.r12,.r13,.r14,.r15],
      ((t.entered.set .rax base).setMem m).reg r = p.reg r := by
    intro r hr
    have hne : r ≠ .rax ∧ r ≠ .rcx ∧ r ≠ .r11 := by revert r; decide
    rw [← hk.reg r (by revert r; decide),setMem_reg,set_reg_of_ne _ _ _ hne.1,Machine.entered,
      goto_reg,set_reg_of_ne _ _ _ hne.2.2,set_reg_of_ne _ _ _ hne.2.1]
  obtain ⟨u,htu,hu⟩ := reaches_rustEntry h (s := (t.entered.set .rax base).setMem m)
    (by simp [Machine.entered,htrip,BitVec.add_assoc]) ((hkeep _ (by simp)).trans hr12)
    ((hkeep _ (by simp)).trans hr13) ((hkeep _ (by simp)).trans hr14)
    ((hkeep _ (by simp)).trans hr15)
  rw [setMem_reg,set_reg_self,setMem_mem] at hu
  obtain ⟨hpaged,huser,hothers⟩ := hmap
  have hsp : base+stackSize-8#64 = base+0x7FFF8#64 := by
    unfold stackSize
    bv_omega
  refine ⟨u,htu,hu,?_,fun x hx => ?_⟩
  · rw [hu.rsp,hsp]
    bv_omega
  · rw [hu.mem,setWord_of_le _ ?_,hothers x hx]
    change 0x80000 ≤ _ at hx
    rw [hsp]
    bv_omega

/-- A process with one argument and one variable. -/
def startingMachine : Machine where
  rip := 0x100#64
  reg := fun
    | .rsp => 0x8000#64
    | _ => 0#64
  fsBase := 0#64
  zf := false
  cf := false
  fpu := fun _ => 0#8
  mem := setWords (fun _ => 0#8) 0x8000#64 [1#64,0x9000#64,0#64,0xA000#64,0#64]

def startingCode : Code := fun a => (startCode 0x300#64 0x100#64)[(a-0x100#64).toNat]?

theorem startCode_calls_one : ∃ t, Reaches startingCode startingMachine t ∧
    t.reg .rdi = 0x18000#64 ∧
    ∃ u, Reaches startingCode ((t.entered.set .rax 0x18000#64).setMem startingMachine.mem) u ∧
      u.rip = 0x300#64 ∧ u.reg .rdi = 1#64 ∧ u.reg .rcx = 0x8028#64 ∧
      (u.reg .rsp).toNat % 16 = 8 := by
  have h : X86.Loaded startingCode 0x100#64 (startCode 0x300#64 0x100#64) :=
    ⟨rfl,rfl,rfl,rfl,rfl,rfl,rfl,rfl,rfl,rfl,rfl,rfl,rfl,rfl,rfl,rfl,rfl,rfl,rfl,rfl,rfl,rfl,rfl,rfl,
      rfl,rfl,rfl,rfl,rfl,rfl,rfl,rfl,trivial⟩
  have hf : OnFrame startingMachine ⟨0x8000#64,startingMachine.mem.word⟩ :=
    ⟨rfl,by unfold Aligned; decide,fun _ _ => rfl⟩
  have hwords : WordsAt startingMachine.mem 0x8000#64 [1#64,0x9000#64,0#64,0xA000#64,0#64] :=
    wordsAt_setWords (by decide)
  have hstack : KernelStack startingMachine.mem.word 0x8000#64 [0x9000#64] [0xA000#64] [] :=
    ⟨hwords,by simp,by simp⟩
  obtain ⟨t,hrun,hask,-,hcall⟩ := startCode_calls h rfl hf hstack
  refine ⟨t,hrun,hask.rdi.trans (by decide),?_⟩
  obtain ⟨u,hu,hc,hal,-⟩ := hcall 0x18000#64 startingMachine.mem ⟨by decide,by decide,fun _ _ => rfl⟩
  exact ⟨u,hu,hc.rip,hc.argc,hc.auxv,hal⟩

end WinterLily.Entry
