import WinterLily.Base.X86
import WinterLily.Loader.ThreadArea

/-! `__tls_get_addr` of `iface.rs`, instruction by instruction. Compilers take it to change nothing but
`rax`, so on the path that calls `update_tls` it saves every register that a call may change, the
vector registers with `fxsave64`. That asks for an aligned operand, and has one if the function was
called on an aligned stack. -/
namespace WinterLily.Loader
open WinterLily.Memory WinterLily.X86

/-- The registers saved, in the order they are pushed. -/
def tlsSaved : List Reg := [.rax,.rdi,.rsi,.rdx,.rcx,.r8,.r9,.r10,.r11]

/-- `__tls_get_addr` at `start`, with `2:` four and `3:` eight instructions in. `update` is
`__rtld_update_global_tcb`. -/
def tlsGetAddrCode (tlsMc update start : X86.Word) : List Instr :=
  [.op (.mov .rax (.mem (.symbol tlsMc))),
   .op (.mov .rax (.mem (.based .rax 24#64))),
   .op (.cmp .rax (.mem (.fs 24#64))),
   .jcc .ne (start+8#64),
   .op (.mov .rax (.mem (.based .rdi 0#64))),
   .op (.add .rax (.mem (.based .rdi 8#64))),
   .op (.add .rax (.mem (.fs 0#64))),
   .ret,
   .op (.push .rax),
   .op (.push .rdi),
   .op (.push .rsi),
   .op (.push .rdx),
   .op (.push .rcx),
   .op (.push .r8),
   .op (.push .r9),
   .op (.push .r10),
   .op (.push .r11),
   .op (.sub .rsp (.imm 464#64)),
   .fxsave (.based .rsp 0#64),
   .call update,
   .fxrstor (.based .rsp 0#64),
   .op (.add .rsp (.imm 464#64)),
   .op (.pop .r11),
   .op (.pop .r10),
   .op (.pop .r9),
   .op (.pop .r8),
   .op (.pop .rcx),
   .op (.pop .rdx),
   .op (.pop .rsi),
   .op (.pop .rdi),
   .op (.pop .rax),
   .jmp (start+4#64)]

section

variable {code : Code} {tlsMc update start : X86.Word} {s t u : Machine}

/-- The comparison of the two versions. -/
lemma reaches_compared (h : X86.Loaded code start (tlsGetAddrCode tlsMc update start))
    (hrip : s.rip = start) :
    ∃ t, Reaches code s t ∧ Keeps [.rax] s t ∧
      t.rip = if s.mem.word (s.mem.word tlsMc+24#64) = s.mem.word (s.fsBase+24#64)
        then start+4#64 else start+8#64 := by
  obtain ⟨h₁,hj⟩ := reaches_ops
    [.mov .rax (.mem (.symbol tlsMc)),.mov .rax (.mem (.based .rax 24#64)),
      .cmp .rax (.mem (.fs 24#64))] 3 rfl hrip h
  refine ⟨_,h₁.trans (reaches_jcc (goto_rip _ _) hj),((runOps_keeps rfl).goto _).goto _,?_⟩
  by_cases hv : s.mem.word (s.mem.word tlsMc+24#64) = s.mem.word (s.fsBase+24#64)
  · simp [hv,BitVec.add_assoc]
  · simp [hv]

/-- Label `2:`. -/
lemma reaches_address (h : X86.Loaded code start (tlsGetAddrCode tlsMc update start))
    (hrip : s.rip = start+4#64) :
    ∃ t, Reaches code s t ∧ t.rip = s.mem.word (s.reg .rsp) ∧ t.reg .rsp = s.reg .rsp+8#64 ∧
      Keeps [.rax,.rsp] s t ∧
      t.reg .rax = s.mem.word (s.reg .rdi)+s.mem.word (s.reg .rdi+8#64)+s.mem.word s.fsBase := by
  obtain ⟨h₁,hret⟩ := reaches_ops
    [.mov .rax (.mem (.based .rdi 0#64)),.add .rax (.mem (.based .rdi 8#64)),
      .add .rax (.mem (.fs 0#64))] 3 rfl hrip (h.drop 4)
  exact ⟨_,h₁.trans (reaches_ret (goto_rip _ _) hret),by simp,by simp,
    (((runOps_keeps rfl).goto _).set (by decide) _).goto _,by simp⟩

/-- The machine as `update_tls` is entered, with everything that the call may change put away below
the stack pointer of `s`: the registers, the 464 bytes of `fxsave64` and the return address. -/
structure PutAway (s t : Machine) (ret : X86.Word) : Prop where
  rsp : t.reg .rsp = s.reg .rsp-544#64
  reg : ∀ r, r ≠ .rsp → t.reg r = s.reg r
  fsBase : t.fsBase = s.fsBase
  ret : t.mem.word (s.reg .rsp-544#64) = ret
  image : ∀ i : Fin 464, t.mem (s.reg .rsp-536#64+BitVec.ofNat 64 i) = s.fpu i
  words : WordsAt t.mem (s.reg .rsp-72#64) (tlsSaved.map s.reg).reverse
  above : ∀ x, 544 ≤ (x-(s.reg .rsp-544#64)).toNat → t.mem x = s.mem x

/-- From label `3:` to the call. -/
lemma reaches_putAway (h : X86.Loaded code start (tlsGetAddrCode tlsMc update start))
    (hrip : s.rip = start+8#64) (hal : (s.reg .rsp).toNat % 16 = 8) :
    ∃ t, Reaches code s t ∧ t.rip = update ∧ PutAway s t (start+20#64) := by
  obtain ⟨h₁,hsave⟩ := reaches_ops (tlsSaved.map .push++[.sub .rsp (.imm 464#64)]) 10 rfl hrip
    (h.drop 8)
  have hp : Pushed tlsSaved s (runOps (tlsSaved.map .push) s) :=
    runOps_push (by decide) (by decide) s
  rw [runOps_append] at h₁
  generalize runOps (tlsSaved.map .push) s = p at h₁ hp
  obtain ⟨hprsp,hpreg,hpwords,hpabove,hpfs,hpfpu⟩ := hp
  have hprsp : p.reg .rsp = s.reg .rsp-72#64 := hprsp
  set o := runOps [.sub .rsp (.imm 464#64)] p with ho
  have horsp : o.reg .rsp = s.reg .rsp-536#64 := by
    simp only [ho,runOps_cons,runOps_nil,exec_sub,value_imm,setFlags_reg,set_reg_self,hprsp]
    bv_omega
  have homem : o.mem = p.mem := by simp [ho]
  have hoimage : o.image = s.image := image_congr (by rw [← hpfpu]; simp [ho])
  -- the pushes, the return address and the frame are a multiple of 16 together
  have hea : ∀ a, (o.goto a).ea (.based .rsp 0#64) = s.reg .rsp-536#64 := fun a => by
    rw [ea_goto,ea_based,horsp,BitVec.add_zero]
  have h₂ := reaches_fxsave (goto_rip _ _) hsave (by rw [hea]; bv_omega)
  rw [hea] at h₂
  set q := o.setMem (o.mem.fill (s.reg .rsp-536#64) 464 o.image) with hq
  have hrun := (h₁.trans h₂).trans (reaches_call (goto_rip _ _) hsave.2)
  rw [goto_push,goto_goto,show start+8#64+10#64+1#64+1#64 = start+20#64 by bv_omega] at hrun
  have hqrsp : q.reg .rsp = s.reg .rsp-536#64 := horsp
  have hqmem : q.mem = p.mem.fill (s.reg .rsp-536#64) 464 s.image := by
    rw [hq,setMem_mem,homem,hoimage]
  have hsub : q.reg .rsp-8#64 = s.reg .rsp-544#64 := by rw [hqrsp]; bv_omega
  refine ⟨(q.push (start+20#64)).goto update,hrun,rfl,?_⟩
  constructor
  case rsp => rw [goto_reg,push_rsp,hsub]
  case reg =>
    intro r hr
    rw [goto_reg,push_reg_of_ne _ _ hr,hq,setMem_reg,← hpreg r hr]
    simp [ho,hr]
  case fsBase => rw [goto_fsBase,push_fsBase,hq,setMem_fsBase,ho,runOps_fsBase,hpfs]
  case ret =>
    rw [goto_mem,← hsub]
    exact push_word _ _
  case image =>
    intro i
    have hi := i.isLt
    rw [goto_mem,push_mem_of_le (by rw [hsub]; bv_omega),hqmem,fill_ofNat _ _ _ (by omega),if_pos hi,
      image_val]
  case words =>
    rw [hprsp] at hpwords
    refine hpwords.congr fun i hi => ?_
    have hi : i < 72 := hi
    rw [goto_mem,push_mem_of_le (by rw [hsub]; bv_omega),hqmem]
    exact if_neg (by bv_omega)
  case above =>
    intro x hx
    rw [goto_mem,push_mem_of_le (by rw [hsub]; omega),hqmem,← hpabove x]
    · exact if_neg (by bv_omega)
    · rw [hprsp]
      change 72 ≤ _
      bv_omega

/-- From the return of `update_tls` back to label `2:`, with everything as it was at label `3:`. -/
lemma reaches_takenBack (h : X86.Loaded code start (tlsGetAddrCode tlsMc update start))
    (hal : (s.reg .rsp).toNat % 16 = 8) (ht : PutAway s t (start+20#64)) (hu : Returns 544 t u) :
    ∃ v, Reaches code u v ∧ v.rip = start+4#64 ∧ v.reg = s.reg ∧ v.fpu = s.fpu ∧
      v.fsBase = s.fsBase ∧ v.mem = u.mem := by
  have hrip : u.rip = start+20#64 := by rw [hu.rip,ht.rsp,ht.ret]
  have hrsp : u.reg .rsp = s.reg .rsp-536#64 := by rw [hu.rsp,ht.rsp]; bv_omega
  have hframe : ∀ i < 544, u.mem (s.reg .rsp-536#64+BitVec.ofNat 64 i) =
      t.mem (s.reg .rsp-536#64+BitVec.ofNat 64 i) := by
    have := hu.frame
    rwa [ht.rsp,show s.reg .rsp-544#64+8#64 = s.reg .rsp-536#64 by bv_omega] at this
  have hea : u.ea (.based .rsp 0#64) = s.reg .rsp-536#64 := by
    rw [ea_based,hrsp,BitVec.add_zero]
  have h₀ := reaches_fxrstor hrip (h.drop 20) (by rw [hea]; bv_omega)
  set o := u.setFpu fun i => u.mem (u.ea (.based .rsp 0#64)+BitVec.ofNat 64 i) with ho
  obtain ⟨h₁,hj⟩ := reaches_ops ([.add .rsp (.imm 464#64)]++tlsSaved.reverse.map .pop) 10 rfl
    (goto_rip o (start+20#64+1#64)) (h.drop 20).2
  have h₁ := h₀.trans h₁
  rw [runOps_append,runOps_goto,runOps_goto,goto_goto] at h₁
  set p := runOps [.add .rsp (.imm 464#64)] o with hp
  have hprsp : p.reg .rsp = s.reg .rsp-72#64 := by
    simp only [hp,ho,runOps_cons,runOps_nil,exec_add,value_imm,setFlags_reg,set_reg_self,setFpu_reg,
      hrsp]
    bv_omega
  have hpfpu : p.fpu = s.fpu := by
    funext i
    have hi := i.isLt
    rw [← ht.image i,← hframe i (by omega),← hea]
    simp [hp,ho]
  have hpmem : p.mem = u.mem := by simp [hp,ho]
  have hpreg : ∀ r, r ≠ .rsp → p.reg r = u.reg r := fun r hr => by simp [hp,ho,hr]
  have hwords : WordsAt p.mem (p.reg .rsp) (tlsSaved.reverse.map s.reg) := by
    rw [hprsp,hpmem,List.map_reverse]
    refine ht.words.congr fun i hi => ?_
    have hi : i < 72 := hi
    have := hframe (464+i) (by omega)
    rwa [BitVec.ofNat_add,← BitVec.add_assoc,
      show s.reg .rsp-536#64+464#64 = s.reg .rsp-72#64 by bv_omega] at this
  obtain ⟨hvrsp,hvsaved,hvreg,hvmem,hvfs,hvfpu⟩ := runOps_pop (by decide) (by decide) hwords
  generalize runOps (tlsSaved.reverse.map .pop) p = v at h₁ hvrsp hvsaved hvreg hvmem hvfs hvfpu
  refine ⟨_,h₁.trans (reaches_jmp (goto_rip _ _) hj),goto_rip _ _,?_,hvfpu.trans hpfpu,?_,
    hvmem.trans hpmem⟩
  · funext r
    by_cases hr : r = .rsp
    · subst hr
      have hlen : tlsSaved.reverse.length = 9 := rfl
      rw [goto_reg,goto_reg,hvrsp,hlen,hprsp]
      exact BitVec.sub_add_cancel _ _
    · by_cases hs : r ∈ tlsSaved.reverse
      · exact hvsaved r hs
      · have hc : r ∈ calleeSaved := by
          revert hr hs
          cases r <;> decide
        refine (hvreg r hr hs).trans ?_
        rw [hpreg r hr,hu.saved r hc,ht.reg r hr]
  · exact hvfs.trans (by rw [hp,runOps_fsBase]; exact hu.fsBase.trans ht.fsBase)

/-- Only `rax` and what a return does to the stack pointer changed. -/
structure OnlyRax (s v : Machine) : Prop where
  rip : v.rip = s.mem.word (s.reg .rsp)
  rsp : v.reg .rsp = s.reg .rsp+8#64
  reg : ∀ r, r ≠ .rax → r ≠ .rsp → v.reg r = s.reg r
  fpu : v.fpu = s.fpu
  fsBase : v.fsBase = s.fsBase

/-- Neither `Tcb` is in the 544 bytes below the return address. -/
structure TlsClear (tlsMc : X86.Word) (s : Machine) : Prop where
  tcb : 552 ≤ (s.fsBase-(s.reg .rsp-544#64)).toNat ∧
    (s.fsBase-(s.reg .rsp-544#64)).toNat+32 ≤ 2^64
  master : 552 ≤ (s.mem.word tlsMc-(s.reg .rsp-544#64)).toNat ∧
    (s.mem.word tlsMc-(s.reg .rsp-544#64)).toNat+32 ≤ 2^64

/-- A word of a `Tcb` that is clear of the stack. -/
lemma word_above {m m' : Mem 64} {base p : X86.Word} {n k : ℕ}
    (hm : ∀ x, 544 ≤ (x-base).toNat → m' x = m x)
    (hp : 552 ≤ (p-base).toNat ∧ (p-base).toNat+n ≤ 2^64) (hk : k+8 ≤ n) :
    m'.word (p+BitVec.ofNat 64 k) = m.word (p+BitVec.ofNat 64 k) := by
  have hoff : (p+BitVec.ofNat 64 k-base).toNat = (p-base).toNat+k := by
    rw [show p+BitVec.ofNat 64 k-base = p-base+BitVec.ofNat 64 k by bv_omega]
    exact add_ofNat_toNat (by omega)
  exact X86.word_of_agree hm (by omega) (by omega)

/-- The path on which the thread is up to date. -/
lemma reaches_fast (h : X86.Loaded code start (tlsGetAddrCode tlsMc update start))
    (hrip : s.rip = start)
    (hv : s.mem.word (s.mem.word tlsMc+24#64) = s.mem.word (s.fsBase+24#64)) :
    ∃ v, Reaches code s v ∧ OnlyRax s v ∧ v.mem = s.mem ∧
      v.reg .rax = s.mem.word (s.reg .rdi)+s.mem.word (s.reg .rdi+8#64)+s.mem.word s.fsBase := by
  obtain ⟨p,hsp,hk,hprip⟩ := reaches_compared h hrip
  rw [if_pos hv] at hprip
  obtain ⟨v,hpv,hvrip,hvrsp,hkv,hvax⟩ := reaches_address h hprip
  have hkeep : Keeps [.rax,.rsp] s v := (hk.mono (by decide)).trans hkv
  refine ⟨v,hsp.trans hpv,⟨?_,?_,fun r h₁ h₂ => hkeep.reg r (by simp [h₁,h₂]),hkeep.fpu,
    hkeep.fsBase⟩,hkeep.mem,?_⟩
  · rw [hvrip,hk.mem,hk.reg .rsp (by decide)]
  · rw [hvrsp,hk.reg .rsp (by decide)]
  · rw [hvax,hk.mem,hk.reg .rdi (by decide),hk.fsBase]

/-- The path through `update_tls`. -/
lemma reaches_slow (h : X86.Loaded code start (tlsGetAddrCode tlsMc update start))
    (hrip : s.rip = start) (hal : (s.reg .rsp).toNat % 16 = 8)
    (hv : s.mem.word (s.mem.word tlsMc+24#64) ≠ s.mem.word (s.fsBase+24#64)) :
    ∃ t, Reaches code s t ∧ t.rip = update ∧ t.reg .rsp = s.reg .rsp-544#64 ∧
      (∀ x, 544 ≤ (x-(s.reg .rsp-544#64)).toNat → t.mem x = s.mem x) ∧
      ∀ u, Returns 544 t u → ∃ v, Reaches code u v ∧ OnlyRax s v ∧ v.mem = u.mem ∧
        v.reg .rax =
          u.mem.word (s.reg .rdi)+u.mem.word (s.reg .rdi+8#64)+u.mem.word s.fsBase := by
  obtain ⟨p,hsp,hk,hprip⟩ := reaches_compared h hrip
  rw [if_neg hv] at hprip
  have hprsp : p.reg .rsp = s.reg .rsp := hk.reg _ (by decide)
  have hpal : (p.reg .rsp).toNat % 16 = 8 := by rw [hprsp]; exact hal
  obtain ⟨t,hpt,htrip,ht⟩ := reaches_putAway h hprip hpal
  have habove : ∀ x, 544 ≤ (x-(s.reg .rsp-544#64)).toNat → t.mem x = s.mem x := by
    have := ht.above
    rwa [hprsp,hk.mem] at this
  refine ⟨t,hsp.trans hpt,htrip,by rw [ht.rsp,hprsp],habove,fun u hu => ?_⟩
  obtain ⟨q,huq,hqrip,hqreg,hqfpu,hqfs,hqmem⟩ := reaches_takenBack h hpal ht hu
  obtain ⟨v,hqv,hvrip,hvrsp,hkv,hvax⟩ := reaches_address h hqrip
  have hqrsp : q.reg .rsp = s.reg .rsp := by rw [hqreg,hprsp]
  have hqrdi : q.reg .rdi = s.reg .rdi := by rw [hqreg,hk.reg .rdi (by decide)]
  have hret : u.mem.word (s.reg .rsp) = s.mem.word (s.reg .rsp) := by
    have hbytes : ∀ i < 8, u.mem (s.reg .rsp+BitVec.ofNat 64 i) =
        t.mem (s.reg .rsp+BitVec.ofNat 64 i) := by
      intro i hi
      have := hu.frame (536+i) (by omega)
      rwa [ht.rsp,hprsp,BitVec.ofNat_add,← BitVec.add_assoc,
        show s.reg .rsp-544#64+8#64+536#64 = s.reg .rsp by bv_omega] at this
    rw [word_congr hbytes]
    exact X86.word_of_agree habove (by bv_omega) (by bv_omega)
  refine ⟨v,huq.trans hqv,⟨?_,?_,fun r h₁ h₂ => ?_,?_,?_⟩,hkv.mem.trans hqmem,?_⟩
  · rw [hvrip,hqmem,hqrsp,hret]
  · rw [hvrsp,hqrsp]
  · rw [hkv.reg r (by simp [h₁,h₂]),hqreg,hk.reg r (by simp [h₁])]
  · rw [hkv.fpu,hqfpu,hk.fpu]
  · rw [hkv.fsBase,hqfs,hk.fsBase]
  · rw [hvax,hqmem,hqrdi,hqfs,hk.fsBase]

/-- What the function does in terms of `tlsGetAddr`, for a descriptor `(tlsModule, offset)`. On the
slow path the memory that `update_tls` leaves is that of its model, and the descriptor is not part of
the area it updates. -/
structure GetsAddr (code : Code) (update mc tlsModule offset : X86.Word) (s : Machine) : Prop where
  fast : s.mem.word (mc+24#64) = s.mem.word (s.fsBase+24#64) →
    ∃ v, Reaches code s v ∧ OnlyRax s v ∧ ∀ mprotect,
      tlsGetAddr mprotect s.mem mc s.fsBase tlsModule offset = some (v.reg .rax,v.mem)
  slow : s.mem.word (mc+24#64) ≠ s.mem.word (s.fsBase+24#64) →
    ∃ t, Reaches code s t ∧ t.rip = update ∧ (t.reg .rsp).toNat % 16 = 8 ∧
      (∀ x, 544 ≤ (x-(s.reg .rsp-544#64)).toNat → t.mem x = s.mem x) ∧
      ∀ u, Returns 544 t u → u.mem.word (s.reg .rdi) = tlsModule →
        u.mem.word (s.reg .rdi+8#64) = offset →
        ∃ v, Reaches code u v ∧ OnlyRax s v ∧ v.mem = u.mem ∧
          ∀ mprotect, updateTls mprotect t.mem mc s.fsBase = some u.mem →
            tlsGetAddr mprotect t.mem mc s.fsBase tlsModule offset = some (v.reg .rax,v.mem)

/-- Called on an aligned stack that is clear of the two `Tcb`s, `__tls_get_addr` changes `rax` only on
both paths, and `rax` is the address `tlsGetAddr` has. On the slow path `update_tls` is entered on an
aligned stack too. -/
theorem tlsGetAddrCode_getsAddr (h : X86.Loaded code start (tlsGetAddrCode tlsMc update start))
    (hrip : s.rip = start) (hal : (s.reg .rsp).toNat % 16 = 8) (hc : TlsClear tlsMc s) :
    GetsAddr code update (s.mem.word tlsMc) (s.mem.word (s.reg .rdi))
      (s.mem.word (s.reg .rdi+8#64)) s := by
  constructor
  case fast =>
    intro hv
    obtain ⟨v,hsv,hov,hvmem,hvax⟩ := reaches_fast h hrip hv
    refine ⟨v,hsv,hov,fun mprotect => ?_⟩
    rw [tlsGetAddr,if_pos hv,hvax,hvmem]
  case slow =>
    intro hv
    obtain ⟨t,hst,htrip,htrsp,habove,hret⟩ := reaches_slow h hrip hal hv
    refine ⟨t,hst,htrip,?_,habove,fun u hu hmod hoff => ?_⟩
    · rw [htrsp]
      bv_omega
    · obtain ⟨v,huv,hov,hvmem,hvax⟩ := hret u hu
      refine ⟨v,huv,hov,hvmem,fun mprotect hup => ?_⟩
      have hvt : t.mem.word (s.mem.word tlsMc+24#64) ≠ t.mem.word (s.fsBase+24#64) := by
        rw [word_above habove hc.master (k := 24) le_rfl,word_above habove hc.tcb (k := 24) le_rfl]
        exact hv
      rw [tlsGetAddr,if_neg hvt,hup,hvmem,hvax,hmod,hoff]
      rfl

end

/-- A thread whose version is behind that of the master copy. -/
def staleMachine : Machine where
  rip := 0x100#64
  reg := fun
    | .rsp => 0x8008#64
    | .rdi => 0x9000#64
    | _ => 0#64
  fsBase := 0xB000#64
  zf := false
  cf := false
  fpu := fun _ => 0#8
  mem := Mem.setWord (fun _ => 0x11#8) 0xB018#64 2#64

def staleCode : Code := fun a => (tlsGetAddrCode 0xA000#64 0x300#64 0x100#64)[(a-0x100#64).toNat]?

lemma constant_word (a : X86.Word) : Mem.word (fun _ => 0x11#8) a = 0x1111111111111111#64 := by
  rw [Mem.word,List.map_const']
  rfl

lemma stale_word {a : X86.Word} (hlo : 8 ≤ (a-0xB018#64).toNat)
    (hhi : (a-0xB018#64).toNat+8 ≤ 2^64) :
    staleMachine.mem.word a = 0x1111111111111111#64 :=
  (word_setWord_of_le _ hlo hhi).trans (constant_word a)

theorem tlsGetAddrCode_getsAddr_stale : ∃ t, Reaches staleCode staleMachine t ∧ t.rip = 0x300#64 ∧
    (t.reg .rsp).toNat % 16 = 8 := by
  have h : X86.Loaded staleCode 0x100#64 (tlsGetAddrCode 0xA000#64 0x300#64 0x100#64) :=
    ⟨rfl,rfl,rfl,rfl,rfl,rfl,rfl,rfl,rfl,rfl,rfl,rfl,rfl,rfl,rfl,rfl,rfl,rfl,rfl,rfl,rfl,rfl,rfl,rfl,
      rfl,rfl,rfl,rfl,rfl,rfl,rfl,rfl,trivial⟩
  have hmc : staleMachine.mem.word 0xA000#64 = 0x1111111111111111#64 :=
    stale_word (by decide) (by decide)
  have hc : TlsClear 0xA000#64 staleMachine := by
    refine ⟨⟨by decide,by decide⟩,?_⟩
    rw [hmc]
    exact ⟨by decide,by decide⟩
  have hv : staleMachine.mem.word (0x1111111111111111#64+24#64) ≠
      staleMachine.mem.word (staleMachine.fsBase+24#64) := by
    rw [stale_word (by decide) (by decide)]
    have : staleMachine.mem.word (staleMachine.fsBase+24#64) = 2#64 := word_setWord (by decide) _ _ _
    rw [this]
    decide
  have hg := tlsGetAddrCode_getsAddr h rfl rfl hc
  rw [hmc] at hg
  obtain ⟨t,hrun,hrip,hal,-⟩ := hg.slow hv
  exact ⟨t,hrun,hrip,hal⟩

end WinterLily.Loader
