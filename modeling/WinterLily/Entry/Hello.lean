import WinterLily.Entry.EntryCode

/-! The guest `tests/x86_64/lilium-hello.as`, entered by `__call_entry_point`: it looks for the initial
handles in the auxiliary vector that `__setup_auxv` wrote and writes to the standard output among
them. -/
namespace WinterLily.Entry
open WinterLily.Memory WinterLily.Stack WinterLily.X86

/-- `_start` of `lilium-hello` at `start`, with the texts `.hello` and `.err`. -/
def helloCode (hello err start : X86.Word) : List Instr :=
  [.op (.pop .rdi),
   .op (.lea .rdi (.based .rdi 1#64)),
   .op (.mov .rsi (.reg .rbx)),
   -- `_start._find_init_hdls`
   .op (.mov32 .rax (.mem (.based .rsi 0#64))),
   .op (.test32 .rax .rax),
   .jcc .e (start+19#64),
   .op (.cmp32 .rax 64#32),
   .jcc .e (start+10#64),
   .op (.lea .rsi (.based .rsi 16#64)),
   .jmp (start+3#64),
   -- `_start._init_found`
   .op (.mov .rsi (.mem (.based .rsi 8#64))),
   .op (.mov .rdi (.mem (.based .rsi 8#64))),
   .op (.mov .rax (.imm 0x2001#64)),
   .op (.lea .rsi (.symbol hello)),
   .op (.mov .rdx (.imm 13#64)),
   .syscall,
   .op (.mov .rax (.imm 0x3000#64)),
   .op (.mov .rdi (.imm 0#64)),
   .syscall,
   -- `_start._auxv_end_err`
   .op (.lea .rdi (.symbol err)),
   .op (.mov .rax (.imm 0x40#64)),
   .syscall,
   .ud2]

/-- An entry of the auxiliary vector. -/
structure AuxEnt where
  tag : X86.Word
  val : X86.Word
  deriving DecidableEq, Repr

/-- The cells of an auxiliary vector. -/
def auxWords (aux : List AuxEnt) : List X86.Word := aux.flatMap fun e => [e.tag,e.val]

/-- What a guest looks for: the value of the first entry with the tag `AT_LILIUM_INIT_HANDLES`. -/
def initHandles (aux : List AuxEnt) : Option X86.Word :=
  (aux.find? fun e => e.tag.setWidth 32 == 64#32).map (·.val)

section Search

variable {code : Code} {s : Machine} {m : Store} {hello err start : X86.Word}
  (h : X86.Loaded code start (helloCode hello err start))
include h

lemma reaches_tag (hs : s.rip = start+3#64) (hcells : ∀ x, Aligned x → s.mem.word x = m x)
    (hal : Aligned (s.reg .rsi)) :
    ∃ t, Reaches code s t ∧ Keeps [.rax] s t ∧
      t.reg .rax = ((m (s.reg .rsi)).setWidth 32).setWidth 64 ∧
      t.rip = if (m (s.reg .rsi)).setWidth 32 = 0#32 then start+19#64 else start+6#64 := by
  obtain ⟨h₁,hj⟩ := reaches_ops [.mov32 .rax (.mem (.based .rsi 0#64)),.test32 .rax .rax] 2 rfl hs
    (h.drop 3)
  refine ⟨_,h₁.trans (reaches_jcc (goto_rip _ _) hj),((runOps_keeps rfl).goto _).goto _,?_,?_⟩
  · simp [hcells _ hal]
  · by_cases hz : (m (s.reg .rsi)).setWidth 32 = 0#32
    · simp [hcells _ hal,hz]
    · simp [hcells _ hal,hz,BitVec.add_assoc]

lemma reaches_compare (hs : s.rip = start+6#64) :
    ∃ t, Reaches code s t ∧ Keeps [] s t ∧
      t.rip = if (s.reg .rax).setWidth 32 = 64#32 then start+10#64 else start+8#64 := by
  obtain ⟨h₁,hj⟩ := reaches_ops [.cmp32 .rax 64#32] 1 rfl hs (h.drop 6)
  refine ⟨_,h₁.trans (reaches_jcc (goto_rip _ _) hj),((runOps_keeps rfl).goto _).goto _,?_⟩
  by_cases ht : (s.reg .rax).setWidth 32 = 64#32
  · simp [ht]
  · simp [ht,BitVec.add_assoc]

lemma reaches_next (hs : s.rip = start+8#64) :
    ∃ t, Reaches code s t ∧ Keeps [.rsi] s t ∧ t.rip = start+3#64 ∧
      t.reg .rsi = cell (s.reg .rsi) 2 := by
  obtain ⟨h₁,hj⟩ := reaches_ops [.lea .rsi (.based .rsi 16#64)] 1 rfl hs (h.drop 8)
  exact ⟨_,h₁.trans (reaches_jmp (goto_rip _ _) hj),((runOps_keeps rfl).goto _).goto _,goto_rip _ _,
    by simp [cell]⟩

/-- The loop over a terminated vector stops at the entry it looks for, or at the end. -/
lemma reaches_search {aux : List AuxEnt} {rest : List X86.Word} (hs : s.rip = start+3#64)
    (hcells : ∀ x, Aligned x → s.mem.word x = m x) (hal : Aligned (s.reg .rsi))
    (haux : Holds m (s.reg .rsi) (auxWords aux++0#64::rest))
    (htags : ∀ e ∈ aux, e.tag.setWidth 32 ≠ 0#32) :
    ∃ t, Reaches code s t ∧ Keeps [.rax,.rsi] s t ∧ Aligned (t.reg .rsi) ∧
      (∀ v, initHandles aux = some v → t.rip = start+10#64 ∧ m (t.reg .rsi+8#64) = v) ∧
      (initHandles aux = none → t.rip = start+19#64) := by
  induction aux generalizing s with
  | nil =>
    obtain ⟨t,hst,hk,-,hrip⟩ := reaches_tag h hs hcells hal
    have hzero : m (s.reg .rsi) = 0#64 := haux.1
    rw [hzero,if_pos (by decide)] at hrip
    exact ⟨t,hst,hk.mono (by decide),by rwa [hk.reg _ (by decide)],
      fun v hv => absurd hv (by simp [initHandles]),fun _ => hrip⟩
  | cons e aux ih =>
    obtain ⟨htag,hval,haux⟩ := haux
    obtain ⟨t,hst,hkt,hrax,htrip⟩ := reaches_tag h hs hcells hal
    rw [htag] at hrax htrip
    rw [if_neg (htags e List.mem_cons_self)] at htrip
    obtain ⟨u,htu,hku,hurip⟩ := reaches_compare h htrip
    rw [hrax,BitVec.setWidth_setWidth_of_le _ (by decide),BitVec.setWidth_eq] at hurip
    have hsu : Keeps [.rax,.rsi] s u := (hkt.mono (by decide)).trans (hku.mono (by simp))
    have hrsi : u.reg .rsi = s.reg .rsi := (hku.reg _ (by simp)).trans (hkt.reg _ (by decide))
    by_cases hfound : e.tag.setWidth 32 = 64#32
    · rw [if_pos hfound] at hurip
      have hfirst : initHandles (e::aux) = some e.val := by simp [initHandles,hfound]
      refine ⟨u,hst.trans htu,hsu,hrsi ▸ hal,fun v hv => ⟨hurip,?_⟩,fun hn => ?_⟩
      · rw [hfirst] at hv
        rw [hrsi,← cell_one,hval]
        exact Option.some.inj hv
      · rw [hfirst] at hn
        cases hn
    · rw [if_neg hfound] at hurip
      have hlater : initHandles (e::aux) = initHandles aux := by simp [initHandles,hfound]
      obtain ⟨v,huv,hkv,hvrip,hvrsi⟩ := reaches_next h hurip
      rw [hrsi] at hvrsi
      have hsv : Keeps [.rax,.rsi] s v := hsu.trans (hkv.mono (by decide))
      obtain ⟨w,hvw,hkw,hw⟩ := ih hvrip (fun x hx => by rw [hsv.mem,hcells x hx])
        (by rw [hvrsi]; exact hal.cell 2)
        (by rw [hvrsi,← cell_cell _ 1 1]; exact haux) fun e he => htags e (List.mem_cons_of_mem _ he)
      rw [hlater]
      exact ⟨w,((hst.trans htu).trans huv).trans hvw,hsv.trans hkw,hw⟩

/-- `IOWrite` of the text, to the second handle at `handles`. -/
structure WritesHello (code : Code) (hello stdout : X86.Word) (t : Machine) : Prop where
  syscall : code t.rip = some .syscall
  rax : t.reg .rax = 0x2001#64
  rdi : t.reg .rdi = stdout
  rsi : t.reg .rsi = hello
  rdx : t.reg .rdx = 13#64

/-- From the entry point to the end of the loop. -/
lemma reaches_searched {aux : List AuxEnt} {rest : List X86.Word} (hs : s.rip = start)
    (hcells : ∀ x, Aligned x → s.mem.word x = m x) (hal : Aligned (s.reg .rbx))
    (haux : Holds m (s.reg .rbx) (auxWords aux++0#64::rest))
    (htags : ∀ e ∈ aux, e.tag.setWidth 32 ≠ 0#32) :
    ∃ t, Reaches code s t ∧ t.mem = s.mem ∧ Aligned (t.reg .rsi) ∧
      (∀ v, initHandles aux = some v → t.rip = start+10#64 ∧ m (t.reg .rsi+8#64) = v) ∧
      (initHandles aux = none → t.rip = start+19#64) := by
  obtain ⟨h₁,-⟩ := reaches_ops [.pop .rdi,.lea .rdi (.based .rdi 1#64),.mov .rsi (.reg .rbx)] 3 rfl hs
    h
  have hk₁ : Keeps [.rdi,.rsi,.rsp] s (runOps [.pop .rdi,.lea .rdi (.based .rdi 1#64),
    .mov .rsi (.reg .rbx)] s) := runOps_keeps rfl
  have hrsi : (runOps [.pop .rdi,.lea .rdi (.based .rdi 1#64),.mov .rsi (.reg .rbx)] s).reg .rsi =
    s.reg .rbx := by simp
  generalize runOps [.pop .rdi,.lea .rdi (.based .rdi 1#64),.mov .rsi (.reg .rbx)] s = p at *
  obtain ⟨t,hpt,hkt,ht⟩ := reaches_search h (s := p.goto (start+3#64)) (goto_rip _ _)
    (fun x hx => by rw [goto_mem,hk₁.mem,hcells x hx]) (by rwa [goto_reg,hrsi])
    (by rwa [goto_reg,hrsi]) htags
  exact ⟨t,h₁.trans hpt,hkt.mem.trans hk₁.mem,ht⟩

lemma reaches_write {handles : X86.Word} (hs : s.rip = start+10#64)
    (hcells : ∀ x, Aligned x → s.mem.word x = m x) (hal : Aligned (s.reg .rsi))
    (hval : m (s.reg .rsi+8#64) = handles) (hhandles : Aligned handles) :
    ∃ t, Reaches code s t ∧ t.rip = start+15#64 ∧ WritesHello code hello (m (cell handles 1)) t := by
  have hptr : s.mem.word (s.reg .rsi+8#64) = handles := by
    rw [hcells _ (hal.add (aligned_mul 1)),hval]
  have hstdout : s.mem.word (handles+8#64) = m (cell handles 1) :=
    hcells _ (hhandles.add (aligned_mul 1))
  obtain ⟨h₁,hcall⟩ := reaches_ops [.mov .rsi (.mem (.based .rsi 8#64)),
    .mov .rdi (.mem (.based .rsi 8#64)),.mov .rax (.imm 0x2001#64),.lea .rsi (.symbol hello),
    .mov .rdx (.imm 13#64)] 5 rfl hs (h.drop 10)
  exact ⟨_,h₁,by simp [BitVec.add_assoc],hcall.1,by simp,by simp [hptr,hstdout],by simp,by simp⟩

/-- From the return of `IOWrite` to `ExitProcess`. -/
lemma reaches_exit (hs : s.rip = start+16#64) :
    ∃ t, Reaches code s t ∧ code t.rip = some .syscall ∧ t.reg .rax = 0x3000#64 ∧
      t.reg .rdi = 0#64 := by
  obtain ⟨h₁,hcall⟩ := reaches_ops [.mov .rax (.imm 0x3000#64),.mov .rdi (.imm 0#64)] 2 rfl hs
    (h.drop 16)
  exact ⟨_,h₁,hcall.1,by simp,by simp⟩

/-- The vector has no initial handles. -/
lemma reaches_raise (hs : s.rip = start+19#64) :
    ∃ t, Reaches code s t ∧ code t.rip = some .syscall ∧ t.reg .rax = 0x40#64 ∧
      t.reg .rdi = err := by
  obtain ⟨h₁,hcall⟩ := reaches_ops [.lea .rdi (.symbol err),.mov .rax (.imm 0x40#64)] 2 rfl hs
    (h.drop 19)
  exact ⟨_,h₁,hcall.1,by simp,by simp⟩

end Search

section Loaded

variable {f : Frame} {argc argv envp liliumAux : X86.Word} {args env ws : List X86.Word}

/-- The calls of `__setup_auxv` push within the cells that are spared. -/
lemma CallReady.pushed (h : CallReady f argc argv envp liliumAux args env) :
    let ps := pushes argc argv envp (BitVec.ofNat 64 (env.length+1)) liliumAux f 3
    let e := setupAuxv argc argv envp (BitVec.ofNat 64 (env.length+1)) liliumAux f
    ps.length ≤ args.length+env.length+13 ∧ e.frame = Frame.pushAll ⟨f.rsp+16#64,f.store⟩ ps ∧
      e.rbx = (Frame.pushAll ⟨f.rsp+16#64,f.store⟩
        (auxPushes argc (BitVec.ofNat 64 (env.length+1)) liliumAux f 3)).rsp := by
  have hsize := h.size
  have hnum : (BitVec.ofNat 64 (env.length+1)).toNat = env.length+1 := by
    rw [BitVec.toNat_ofNat]
    exact Nat.mod_eq_of_lt (by omega)
  have hroom : (pushes argc argv envp (BitVec.ofNat 64 (env.length+1)) liliumAux f
      (3#64).toNat).length ≤ args.length+env.length+13 := by
    have hpad := padding_length argc (BitVec.ofNat 64 (env.length+1)) (f.store f.rsp)
    rw [pushes_length,h.count,hnum,show (3#64).toNat = 3 from rfl]
    omega
  have haux : (3#64).toNat < 2^60 := by decide
  obtain ⟨hframe,hrbx,-⟩ := callEntryPoint_eq (by omega) haux (cell_below (f.rsp+16#64) _) hroom
    (h.count.symm ▸ h.argsSpared) (hnum.symm ▸ h.envSpared) h.auxSpared
  exact ⟨hroom,hframe,hrbx⟩

/-- The entry point finds `lilium_aux` at `rbx`. -/
lemma CallReady.auxv (h : CallReady f argc argv envp liliumAux args env)
    (hws : Holds f.store liliumAux ws) (hlen : ws.length = 6) :
    let e := setupAuxv argc argv envp (BitVec.ofNat 64 (env.length+1)) liliumAux f
    ∃ rest, Holds e.frame.store e.rbx (ws++0#64::rest) := by
  obtain ⟨hroom,hframe,hrbx⟩ := h.pushed
  have hsize := h.size
  have hread : words f.store liliumAux 6 = ws := hlen ▸ words_eq hws
  set top := auxPushes argc (BitVec.ofNat 64 (env.length+1)) liliumAux f 3 with htop
  obtain ⟨low,hlow⟩ : ∃ low, pushes argc argv envp (BitVec.ofNat 64 (env.length+1)) liliumAux f 3 =
      top++low := ⟨_,by rw [pushes,List.append_assoc,List.append_assoc,List.append_assoc,
        List.append_assoc]⟩
  rw [hlow] at hroom hframe
  have hholds := Frame.pushAll_holds (s := ⟨f.rsp+16#64,f.store⟩) (top++low) (by omega)
  rw [List.reverse_append,holds_append,List.length_reverse] at hholds
  have hrev : top.reverse = ws++0#64::(0#64::(padding argc (BitVec.ofNat 64 (env.length+1))
      (f.store f.rsp)).reverse) := by
    rw [htop,auxPushes,hread]
    simp
  rw [hrev,← Frame.pushAll_append_rsp top low,← hrbx,← hframe] at hholds
  exact ⟨_,hholds.2⟩

/-- Cells away from the pushes are as they were. -/
lemma CallReady.untouched (h : CallReady f argc argv envp liliumAux args env) {base : X86.Word}
    {k i : ℕ} (hbase : Spared f (args.length+env.length+13) base k) (hi : i < k) :
    (setupAuxv argc argv envp (BitVec.ofNat 64 (env.length+1)) liliumAux f).frame.store
      (cell base i) = f.store (cell base i) := by
  obtain ⟨hroom,hframe,-⟩ := h.pushed
  rw [hframe]
  exact Frame.pushAll_frame (cell_below _ _) hroom fun j hj => hbase j hj i hi

end Loaded

/-- `lilium-hello` on the stack that `__setup_auxv` has built: with initial handles in the vector it
writes its text to the second of them and exits with 0, whatever `IOWrite` returns, and without it
raises an exception. -/
theorem hello_on_entry_stack {code : Code} {s : Machine} {f : Frame}
    {fini argc argv envp liliumAux hello err start : X86.Word} {args env : List X86.Word}
    {aux : List AuxEnt} (h : X86.Loaded code start (helloCode hello err start))
    (hs : Enters fini
      (setupAuxv argc argv envp (BitVec.ofNat 64 (env.length+1)) liliumAux f) s)
    (hready : CallReady f argc argv envp liliumAux args env)
    (hstart : f.store (f.rsp+8#64) = start) (haux : Holds f.store liliumAux (auxWords aux))
    (hthree : aux.length = 3) (htags : ∀ e ∈ aux, e.tag.setWidth 32 ≠ 0#32) :
    (∀ handles, initHandles aux = some handles → Aligned handles →
      Spared f (args.length+env.length+13) handles 2 →
      ∃ t, Reaches code s t ∧ WritesHello code hello (f.store (cell handles 1)) t ∧
        ∀ (r : X86.Word) (m : Mem 64), ∃ u, Reaches code ((t.entered.set .rax r).setMem m) u ∧
          code u.rip = some .syscall ∧ u.reg .rax = 0x3000#64 ∧ u.reg .rdi = 0#64) ∧
      (initHandles aux = none → ∃ t, Reaches code s t ∧ code t.rip = some .syscall ∧
        t.reg .rax = 0x40#64 ∧ t.reg .rdi = err) := by
  obtain ⟨-,hrbx⟩ := hready.layout rfl
  have hlen : (auxWords aux).length = 6 := by
    rw [auxWords,List.length_flatMap]
    simp [hthree]
  obtain ⟨rest,hvec⟩ := hready.auxv haux hlen
  have hal : Aligned (s.reg .rbx) := by
    rw [hs.rbx,hrbx]
    exact hs.frame.aligned.cell _
  rw [← hs.rbx] at hvec
  obtain ⟨t,hst,htmem,htal,hfound,hmissing⟩ := reaches_searched h (hs.rip.trans hstart)
    hs.frame.cells hal hvec htags
  constructor
  · intro handles hfind hhandles hspared
    obtain ⟨hrip,hval⟩ := hfound handles hfind
    obtain ⟨u,htu,hurip,hwrite⟩ := reaches_write h hrip
      (fun x hx => by rw [htmem,hs.frame.cells x hx]) htal hval hhandles
    rw [hready.untouched hspared (by decide)] at hwrite
    refine ⟨u,hst.trans htu,hwrite,fun r m => ?_⟩
    exact reaches_exit h (by simp [Machine.entered,hurip,BitVec.add_assoc])
  · intro hnone
    obtain ⟨u,htu,hu⟩ := reaches_raise h (hmissing hnone)
    exact ⟨u,hst.trans htu,hu⟩

/-- One argument and no environment, with the initial handles at `0xB00`. -/
def helloStore : Store := fun a =>
  if a = 0x810#64 then 0x5000#64
  else if a = 0x900#64 then 25#64
  else if a = 0x908#64 then 0xA00#64
  else if a = 0x910#64 then 64#64
  else if a = 0x918#64 then 0xB00#64
  else if a = 0x920#64 then 65#64
  else if a = 0x928#64 then 3#64
  else if a = 0xB08#64 then 0x77#64
  else if a = 0x1000#64 then 0x70#64
  else 0#64

def helloEntered : Entered := setupAuxv 1#64 0x1000#64 0x2000#64 1#64 0x900#64 ⟨0x808#64,helloStore⟩

def helloMachine : Machine where
  rip := 0x5000#64
  reg := fun
    | .rax => 1#64
    | .rdx => 0x300#64
    | .rbx => helloEntered.rbx
    | .r12 => helloEntered.r12
    | .rsp => helloEntered.frame.rsp
    | _ => 0#64
  fsBase := 0#64
  zf := false
  cf := false
  fpu := fun _ => 0#8
  mem := ofStore helloEntered.frame.store

def helloGuest : Code := fun a => (helloCode 0x6000#64 0x6010#64 0x5000#64)[(a-0x5000#64).toNat]?

theorem hello_on_entry_stack_handles : ∃ t, Reaches helloGuest helloMachine t ∧
    t.reg .rax = 0x2001#64 ∧ t.reg .rdi = 0x77#64 := by
  have h : X86.Loaded helloGuest 0x5000#64 (helloCode 0x6000#64 0x6010#64 0x5000#64) :=
    ⟨rfl,rfl,rfl,rfl,rfl,rfl,rfl,rfl,rfl,rfl,rfl,rfl,rfl,rfl,rfl,rfl,rfl,rfl,rfl,rfl,rfl,rfl,rfl,
      trivial⟩
  have hframe : OnFrame helloMachine helloEntered.frame :=
    ⟨rfl,by unfold Aligned; decide +kernel,fun a ha => word_ofStore _ ha⟩
  have hs : Enters 0x300#64 (setupAuxv 1#64 0x1000#64 0x2000#64
      (BitVec.ofNat 64 (([] : List X86.Word).length+1)) 0x900#64 ⟨0x808#64,helloStore⟩)
      helloMachine := ⟨rfl,hframe,rfl,rfl,rfl,rfl⟩
  have hready : CallReady ⟨0x808#64,helloStore⟩ 1#64 0x1000#64 0x2000#64 0x900#64 [0x70#64] [] :=
    ⟨rfl,⟨rfl,trivial⟩,⟨rfl,trivial⟩,by decide +kernel,by decide +kernel,by decide +kernel,
      by decide⟩
  have haux : Holds helloStore 0x900#64
      (auxWords [⟨25#64,0xA00#64⟩,⟨64#64,0xB00#64⟩,⟨65#64,3#64⟩]) :=
    ⟨rfl,rfl,rfl,rfl,rfl,rfl,trivial⟩
  obtain ⟨t,hst,hwrite,-⟩ := (hello_on_entry_stack h hs hready rfl haux rfl (by decide)).1 0xB00#64
    rfl (by unfold Aligned; decide) (by decide +kernel)
  exact ⟨t,hst,hwrite.rax,hwrite.rdi⟩

end WinterLily.Entry
