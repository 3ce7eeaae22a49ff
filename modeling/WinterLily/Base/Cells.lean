import WinterLily.Base.Stack
import WinterLily.Base.X86

/-! Machine code over a store of cells. At aligned addresses the byte memory of a machine is a store
of words, and an instruction that reads and writes aligned words acts on that store. -/
namespace WinterLily.X86
open WinterLily.Memory WinterLily.Stack

def Aligned (a : Word) : Prop := a.toNat % 8 = 0

section Words

variable {m m' : Mem 64} {a b : Word}

lemma Aligned.add (ha : Aligned a) (hb : Aligned b) : Aligned (a+b) := by
  unfold Aligned at ha hb ⊢
  bv_omega

lemma Aligned.sub (ha : Aligned a) (hb : Aligned b) : Aligned (a-b) := by
  unfold Aligned at ha hb ⊢
  bv_omega

lemma aligned_mul (n : ℕ) : Aligned (BitVec.ofNat 64 (8*n)) := by
  unfold Aligned
  rw [BitVec.toNat_ofNat]
  omega

lemma aligned_scaled (a : Word) : Aligned (8#64*a) := by
  unfold Aligned
  rw [BitVec.toNat_mul]
  change 8*a.toNat % 2^64 % 8 = 0
  omega

lemma aligned_shl (a : Word) : Aligned (a <<< 4) := by
  unfold Aligned
  rw [BitVec.toNat_shiftLeft,Nat.shiftLeft_eq]
  omega

lemma Aligned.cell (ha : Aligned a) (i : ℕ) : Aligned (cell a i) := ha.add (aligned_mul i)

/-- Two aligned words are one or do not meet. -/
lemma Aligned.apart (ha : Aligned a) (hb : Aligned b) (h : b ≠ a) :
    8 ≤ (b-a).toNat ∧ (b-a).toNat+8 ≤ 2^64 := by
  have hne : (b-a).toNat ≠ 0 := fun hc => h (sub_eq_zero.mp (BitVec.eq_of_toNat_eq hc))
  have hmul : (b-a).toNat % 8 = 0 := hb.sub ha
  have := (b-a).isLt
  omega

lemma word_setWord_aligned (ha : Aligned a) (hb : Aligned b) (v : Word) :
    (m.setWord a v).word b = Function.update (fun x => m.word x) a v b := by
  by_cases h : b = a
  · subst h
    rw [Function.update_self,word_setWord (by decide)]
  · have := ha.apart hb h
    rw [Function.update_of_ne h,word_setWord_of_le v this.1 this.2]

lemma word_eq_of_bytes (h : ∀ i < 8, m' (b+BitVec.ofNat 64 i) = m (a+BitVec.ofNat 64 i)) :
    m'.word b = m.word a := by
  unfold Mem.word
  rw [List.map_congr_left fun i hi => h i (List.mem_range.mp hi)]

/-- A copy of sixteen bytes is a copy of two words. -/
lemma word_copy_aligned {src : Word} (ha : Aligned a) (hb : Aligned b) :
    (m.copy src a 16).word b =
      Function.update (Function.update (fun x => m.word x) (a+8#64) (m.word (src+8#64))) a
        (m.word src) b := by
  by_cases h : b = a
  · subst h
    rw [Function.update_self]
    refine word_eq_of_bytes fun i hi => ?_
    rw [Mem.copy,fill_ofNat _ _ _ (by omega),if_pos (by omega)]
  · rw [Function.update_of_ne h]
    by_cases h' : b = a+8#64
    · subst h'
      rw [Function.update_self]
      refine word_eq_of_bytes fun i hi => ?_
      rw [Mem.copy,BitVec.add_assoc,← BitVec.ofNat_add,fill_ofNat _ _ _ (by omega),
        if_pos (by omega),BitVec.ofNat_add,BitVec.add_assoc]
    · rw [Function.update_of_ne h']
      have hlo := ha.apart hb h
      have hne : (b-a).toNat ≠ 8 := fun hc => h' (by bv_omega)
      have hmul : (b-a).toNat % 8 = 0 := hb.sub ha
      exact word_of_agree (n := 16) (fun x hx => if_neg (by omega)) (by omega) hlo.2

/-- The bytes of a store of cells. -/
def ofStore (st : Store) : Mem 64 := fun x =>
  BitVec.ofNat 8 ((st (x-BitVec.ofNat 64 (x.toNat % 8))).toNat/256^(x.toNat % 8))

lemma word_ofStore (st : Store) (ha : Aligned a) : (ofStore st).word a = st a := by
  have hbytes : ∀ i ∈ List.range 8,
      ofStore st (a+BitVec.ofNat 64 i) = BitVec.ofNat 8 ((st a).toNat/256^i) := by
    intro i hi
    rw [List.mem_range] at hi
    unfold Aligned at ha
    have hmod : (a+BitVec.ofNat 64 i).toNat % 8 = i := by bv_omega
    rw [ofStore,hmod,show a+BitVec.ofNat 64 i-BitVec.ofNat 64 i = a from add_sub_cancel_right _ _]
  unfold Mem.word
  rw [List.map_congr_left hbytes,map_range_eq_toLE,
    Bytes.ofLE_toLE 8 (st a).toNat (by have := (st a).isLt; omega),BitVec.ofNat_toNat,
    BitVec.setWidth_eq]

end Words

/-- The stack pointer and the aligned words of the machine are those of the frame. -/
structure OnFrame (s : Machine) (f : Frame) : Prop where
  rsp : s.reg .rsp = f.rsp
  aligned : Aligned f.rsp
  cells : ∀ a, Aligned a → s.mem.word a = f.store a

namespace OnFrame

variable {s t : Machine} {f : Frame} {rs : List Reg}

lemma goto (h : OnFrame s f) (a : Word) : OnFrame (s.goto a) f := ⟨h.rsp,h.aligned,h.cells⟩

lemma congr (h : OnFrame s f) (hrsp : t.reg .rsp = s.reg .rsp) (hmem : t.mem = s.mem) :
    OnFrame t f := ⟨hrsp.trans h.rsp,h.aligned,fun a ha => by rw [hmem,h.cells a ha]⟩

lemma keeps (h : OnFrame s f) (hk : Keeps rs s t) (hrs : .rsp ∉ rs) : OnFrame t f :=
  h.congr (hk.reg _ hrs) hk.mem

/-- The stack pointer is moved. -/
lemma move (h : OnFrame s f) {a : Word} (hrsp : t.reg .rsp = a) (ha : Aligned a)
    (hmem : t.mem = s.mem) : OnFrame t ⟨a,f.store⟩ :=
  ⟨hrsp,ha,fun x hx => by rw [hmem,h.cells x hx]⟩

lemma push (h : OnFrame s f) (v : Word) : OnFrame (s.push v) (f.push v) := by
  have ha : Aligned (f.rsp-8#64) := h.aligned.sub (aligned_mul 1)
  refine ⟨by rw [push_rsp,h.rsp]; rfl,ha,fun a haa => ?_⟩
  change (s.mem.setWord (s.reg .rsp-8#64) v).word a = Function.update f.store (f.rsp-8#64) v a
  rw [h.rsp,word_setWord_aligned ha haa]
  by_cases hne : a = f.rsp-8#64
  · rw [hne,Function.update_self,Function.update_self]
  · rw [Function.update_of_ne hne,Function.update_of_ne hne,h.cells a haa]

/-- A load and a store of `xmm0`. -/
lemma copy (h : OnFrame s f) {src dst : Word} (hsrc : Aligned src) (hdst : Aligned dst)
    (hrsp : t.reg .rsp = s.reg .rsp) (hmem : t.mem = s.mem.copy src dst 16) :
    OnFrame t ⟨f.rsp,Function.update (Function.update f.store (dst+8#64) (f.store (src+8#64))) dst
      (f.store src)⟩ := by
  refine ⟨hrsp.trans h.rsp,h.aligned,fun a ha => ?_⟩
  rw [hmem,word_copy_aligned hdst ha,h.cells _ hsrc,h.cells _ (hsrc.add (aligned_mul 1))]
  have hstore : ∀ x, x = a → s.mem.word x = f.store x := fun x hx => h.cells x (hx ▸ ha)
  simp only [Function.update_apply,hstore a rfl]

end OnFrame

lemma movups_mem (s : Machine) (p q : Addr) :
    (runOps [.movupsLoad p,.movupsStore q] s).mem = s.mem.copy (s.ea p) (s.ea q) 16 := by
  have hea : ((Op.movupsLoad p).exec s).ea q = s.ea q := by cases q <;> rfl
  rw [runOps_cons,runOps_cons,runOps_nil,exec_movupsStore,setMem_mem,hea]
  refine fill_congr _ _ fun i hi => ?_
  have hlt : 160+i < 464 := by omega
  have hxmm : 160+i < 176 := by omega
  simp [Machine.image,hlt,hxmm,Op.exec]

section Leaves

variable {s t u : Machine} {rs qs : List Reg}

/-- The registers that are not in the list are as they were. -/
def Leaves (rs : List Reg) (s t : Machine) : Prop := ∀ r, r ∉ rs → t.reg r = s.reg r

lemma Leaves.refl : Leaves rs s s := fun _ _ => rfl

lemma Leaves.trans (h : Leaves rs s t) (h' : Leaves rs t u) : Leaves rs s u := fun r hr =>
  (h' r hr).trans (h r hr)

lemma Leaves.mono (h : Leaves rs s t) (hrs : rs ⊆ qs) : Leaves qs s t := fun r hr =>
  h r fun hc => hr (hrs hc)

lemma Leaves.goto (h : Leaves rs s t) (a : Word) : Leaves rs s (t.goto a) := h

lemma Keeps.leaves (h : Keeps [] s t) : Leaves rs s t := fun r _ => h.reg r List.not_mem_nil

lemma runOps_leaves {os : List Op} (h : (os.all fun o => o.writes.all fun r => r ∈ rs) = true)
    (s : Machine) : Leaves rs s (runOps os s) := by
  induction os generalizing s with
  | nil => exact Leaves.refl
  | cons o os ih =>
    rw [List.all_cons,Bool.and_eq_true,List.all_eq_true] at h
    intro r hr
    rw [runOps_cons,ih h.2 _ r hr,exec_reg_of_not_mem o fun hc => hr (of_decide_eq_true (h.1 r hc))]

end Leaves

section Loops

variable {code : Code} {s : Machine} {b exit : Word} {r : Reg} {l : List Instr}

/-- A register compared with zero, and a jump if it is. -/
lemma reaches_test (hl : Loaded code b (.op (.test r r)::.jcc .e exit::l)) (hs : s.rip = b) :
    ∃ t, Reaches code s t ∧ Keeps [] s t ∧
      t.rip = if s.reg r = 0#64 then exit else b+2#64 := by
  obtain ⟨h₁,hj⟩ := reaches_ops [.test r r] 1 rfl hs hl
  refine ⟨_,h₁.trans (reaches_jcc (goto_rip _ _) hj),((runOps_keeps rfl).goto _).goto _,?_⟩
  by_cases hr : s.reg r = 0#64
  · simp [hr]
  · simp [hr,BitVec.add_assoc]

/-- A loop whose register is zero when its counter is. The invariant does not look at flags or at the
code address. -/
theorem reaches_counted {I : ℕ → Machine → Prop}
    (hl : Loaded code b (.op (.test r r)::.jcc .e exit::l))
    (hzero : ∀ k s, I k s → (s.reg r = 0#64 ↔ k = 0))
    (hkeep : ∀ k s t, Keeps [] s t → I k s → I k t)
    (hbody : ∀ k s, s.rip = b+2#64 → I (k+1) s → ∃ t, Reaches code s t ∧ t.rip = b ∧ I k t)
    {k : ℕ} (hs : s.rip = b) (h : I k s) : ∃ t, Reaches code s t ∧ t.rip = exit ∧ I 0 t := by
  induction k generalizing s with
  | zero =>
    obtain ⟨t,hst,hk,hrip⟩ := reaches_test hl hs
    rw [if_pos ((hzero 0 s h).mpr rfl)] at hrip
    exact ⟨t,hst,hrip,hkeep 0 s t hk h⟩
  | succ k ih =>
    obtain ⟨t,hst,hk,hrip⟩ := reaches_test hl hs
    rw [if_neg fun hc => Nat.succ_ne_zero k ((hzero _ s h).mp hc)] at hrip
    obtain ⟨u,htu,hurip,hu⟩ := hbody k t hrip (hkeep _ s t hk h)
    obtain ⟨v,huv,hv⟩ := ih hurip hu
    exact ⟨v,(hst.trans htu).trans huv,hv⟩

end Loops

end WinterLily.X86
