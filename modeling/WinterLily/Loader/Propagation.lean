import WinterLily.Loader.World
import Mathlib

/-! TLS propagation and the version fast path of `__tls_get_addr`: the invariant of every run whose
loads fit, what follows from it, and two loads that do not fit. -/
namespace WinterLily.Loader
open WinterLily.Memory WinterLily.Transition

namespace TlsWorld.Inv

variable {s t : TlsWorld} {p ptr : Usize}

lemma apart_master (hs : s.Inv) (hp : p ∈ s.tps) :
    (∀ x ∈ reservation s.mc, x ∉ reservation p) ∧ ∀ x ∈ reservation p, x ∉ reservation s.mc := by
  have hne : s.mc ≠ p := fun hc => hs.own (hc ▸ hp)
  have hmem := List.mem_cons_of_mem s.mc hp
  exact ⟨hs.apart s.mc List.mem_cons_self p hmem hne,
    hs.apart p hmem s.mc List.mem_cons_self hne.symm⟩

/-- A step of one thread, within its area. -/
lemma own_step (hs : s.Inv) (hp : p ∈ s.tps) {μ : Mem 64} {th : TlsThread}
    (hframe : ∀ x, x ∉ reservation p → μ x = s.mem x) (harea : AreaInv μ s.modules p th) :
    TlsWorld.Inv { s with mem := μ, threads := Function.update s.threads p th } := by
  refine ⟨hs.master.frame fun x hx => hframe x ((hs.apart_master hp).1 x hx),fun q hq => ?_,
    hs.apart,hs.own⟩
  by_cases hqp : q = p
  · subst hqp
    dsimp only
    rw [Function.update_self]
    exact harea
  · dsimp only
    rw [Function.update_of_ne hqp]
    have hkeep : ∀ x ∈ reservation q, μ x = s.mem x := fun x hx => hframe x
      (hs.apart q (List.mem_cons_of_mem _ hq) p (List.mem_cons_of_mem _ hp) hqp x hx)
    simpa using (hs.areas q hq).frame hs.master.laid hkeep []

lemma unmapped_apart (h : s.Unmapped ptr) {q x : Usize} (hq : q ∈ s.mc::s.tps)
    (hx : x ∈ reservation q) : x ∉ reservation ptr := fun hc => by
  have hmeets := Span.meets_iff.mpr ⟨x,hx,hc⟩
  rw [h q hq] at hmeets
  cases hmeets

lemma self_mem (q : Usize) : q ∈ reservation q := by
  have h := (mem_reservation q 0#64).mpr (.inl (by decide))
  rwa [BitVec.add_zero] at h

/-- A thread whose `Tcb` has just been written has seen nothing yet. -/
lemma created (hs : s.Inv) (h : s.Unmapped ptr) :
    TlsWorld.Inv { s with
      mem := prepared s.mem ptr
      tps := ptr::s.tps
      threads := Function.update s.threads ptr ⟨0,fun _ => none⟩ } := by
  have hnew : ∀ q ∈ s.mc::s.tps, q ≠ ptr := fun q hq hc =>
    unmapped_apart h hq (self_mem q) (hc ▸ self_mem q)
  refine ⟨hs.master.frame fun x hx => prepared_frame _ (unmapped_apart h List.mem_cons_self hx),
    fun q hq => ?_,fun q hq r hr hqr x hx hc => ?_,fun hc => ?_⟩
  · dsimp only
    cases List.mem_cons.mp hq with
    | inl hqp =>
      rw [hqp,Function.update_self]
      exact prepared_area _ _ _
    | inr hq =>
      have hq' := List.mem_cons_of_mem s.mc hq
      rw [Function.update_of_ne (hnew q hq')]
      have hkeep : ∀ x ∈ reservation q, prepared s.mem ptr x = s.mem x := fun x hx =>
        prepared_frame _ (unmapped_apart h hq' hx)
      simpa using (hs.areas q hq).frame hs.master.laid hkeep []
  · have hmem : ∀ a ∈ s.mc::ptr::s.tps, a = ptr ∨ a ∈ s.mc::s.tps := fun a ha => by
      simp only [List.mem_cons] at ha ⊢
      tauto
    cases hmem q hq with
    | inl hq =>
      cases hmem r hr with
      | inl hr => exact hqr (hq.trans hr.symm)
      | inr hr => exact unmapped_apart h hr hc (hq ▸ hx)
    | inr hq =>
      cases hmem r hr with
      | inl hr => exact unmapped_apart h hq hx (hr ▸ hc)
      | inr hr => exact hs.apart q hq r hr hqr x hx hc
  · cases List.mem_cons.mp hc with
    | inl hc => exact hnew s.mc List.mem_cons_self hc
    | inr hc => exact hs.own hc

lemma updated (hs : s.Inv) (hp : p ∈ s.tps) {mprotect : Mprotect} {μ : Mem 64}
    (h : updateTls mprotect s.mem s.mc p = some μ) :
    TlsWorld.Inv { s with
      mem := μ
      threads := Function.update s.threads p ⟨s.modules.length,(s.threads p).written⟩ } := by
  have hapart := (hs.apart_master hp).1
  have hsync := (hs.areas p hp).synced hs.master hapart h
  exact hs.own_step hp (fun x hx => hsync.frame hs.master.ok hx)
    ((hs.areas p hp).update hs.master hapart h)

theorem step {e : TlsEvent} (hs : s.Inv) (hc : LoadFits s e) (h : worldStep s e = some t) :
    t.Inv := by
  cases e with
  | load tlsSize tlsAlign execTls data =>
    obtain ⟨m,hfit,hcount,rfl⟩ := load_spec hs.master hc h
    refine ⟨hs.master.load hfit hcount,fun p hp => ?_,hs.apart,hs.own⟩
    exact (hs.areas p hp).frame hs.master.laid
      (fun x hx => loaded_frame hs.master hfit ((hs.apart_master hp).2 x hx)) [m]
  | setTp ptr mprotect =>
    simp only [worldStep] at h
    split at h
    · rename_i hfree
      obtain ⟨μ,hμ,rfl⟩ := Option.map_eq_some_iff.mp h
      have hupd := (hs.created hfree).updated List.mem_cons_self hμ
      simpa using hupd
    · cases h
  | updateTls tp mprotect =>
    simp only [worldStep] at h
    split at h
    · rename_i hp
      obtain ⟨μ,hμ,rfl⟩ := Option.map_eq_some_iff.mp h
      exact hs.updated hp hμ
    · cases h
  | store tp off b =>
    simp only [worldStep] at h
    split at h
    · rename_i hown
      cases h
      obtain ⟨hp,hcov⟩ := hown
      have hz := (hs.master.behind (s.threads tp).seen).1
      have hhas : (Extent.initial.after (s.modules.take (s.threads tp).seen)).Has off := by
        rw [(hs.areas tp hp).tcb] at hcov
        simp only [Extent.tcb,hz.load_toNat,hz.dyn_toNat] at hcov
        exact hcov
      refine hs.own_step hp (fun x hx => ?_) ((hs.areas tp hp).store hz hhas b)
      rw [fill_one,Function.update_of_ne]
      intro hc
      exact hx (hc ▸ (mem_reservation tp off).mpr (inArea_of_has hz hhas).1)
    · cases h

end TlsWorld.Inv

theorem initial_inv (m : Mem 64) (mc : Usize) : (TlsWorld.initial m mc).Inv := by
  refine ⟨⟨trivial,Nat.two_pow_pos 64,readTcb_writeTcb _,rfl,fun n hn => ?_,fun j hj h32 _ => ?_⟩,
    fun p hp => ?_,fun p hp q hq hpq => ?_,List.not_mem_nil⟩
  · cases hn
  · refine (prepared_beyond _ h32).trans ?_
    exact if_pos ((mem_reservation mc j).mpr hj)
  · cases hp
  · exact absurd ((List.mem_singleton.mp hp).trans (List.mem_singleton.mp hq).symm) hpq

namespace TlsWorld.Inv

variable {s t : TlsWorld} {p : Usize} {m : TlsModule} {i : ℕ} {mprotect : Mprotect}

/-- A byte of a block, by its offset from the thread pointer. -/
lemma byte_has (hs : s.Inv) (hm : m ∈ s.modules) (hi : i < m.tlsSize.toNat) :
    m.Has (m.off+BitVec.ofNat 64 i) ∧ (m.off+BitVec.ofNat 64 i).toNat-m.off.toNat = i := by
  obtain ⟨z,hfit⟩ := hs.master.laid.fits hm
  have hfin := hfit.finish_le
  have hoff : (m.off+BitVec.ofNat 64 i).toNat = m.off.toNat+i := add_ofNat_toNat (by omega)
  refine ⟨⟨?_,?_⟩,?_⟩ <;> omega

lemma addr_eq (m : TlsModule) (p : Usize) (i : ℕ) : m.addr p i = p+(m.off+BitVec.ofNat 64 i) :=
  BitVec.add_assoc _ _ _

lemma image (hs : s.Inv) (hm : m ∈ s.modules) (hi : i < m.tlsSize.toNat) :
    s.mem (m.addr s.mc i) = m.image i := by
  obtain ⟨hhas,hidx⟩ := hs.byte_has hm hi
  rw [addr_eq,hs.master.image m hm _ hhas,hidx]

/-- An update leaves the master copy. -/
lemma master_kept (hs : s.Inv) (hp : p ∈ s.tps) {μ : Mem 64}
    (h : updateTls mprotect s.mem s.mc p = some μ) (hm : m ∈ s.modules)
    (hi : i < m.tlsSize.toNat) : μ (m.addr s.mc i) = s.mem (m.addr s.mc i) := by
  have hapart := (hs.apart_master hp).1
  have hhas := (hs.byte_has hm hi).1
  have hin := (inArea_of_has hs.master.ok
    (hs.master.laid.blocks Extent.initial_ok hm hhas).2).1
  refine ((hs.areas p hp).synced hs.master hapart h).frame hs.master.ok (hapart _ ?_)
  rw [addr_eq]
  exact (mem_reservation s.mc _).mpr hin

lemma update_sound (hs : s.Inv) (hp : p ∈ s.tps)
    (h : updateTls mprotect s.mem s.mc p = some t.mem) : Updated s t p (s.threads p).seen := by
  have hapart := (hs.apart_master hp).1
  have harea := hs.areas p hp
  refine ⟨fun m hm i hi => ?_,fun m hm i hi => ?_,(harea.synced hs.master hapart h).base⟩
  · have hmem := List.mem_of_mem_drop hm
    rw [hs.master_kept hp h hmem hi,addr_eq,addr_eq]
    exact harea.update_fresh hs.master hapart h hm (hs.byte_has hmem hi).1
  · rw [addr_eq]
    exact harea.update_kept hs.master hapart h hm (hs.byte_has (List.mem_of_mem_take hm) hi).1

/-- A new thread has seen nothing, so every block comes from the master copy. -/
lemma creation_sound (hs : s.Inv) (hfree : s.Unmapped p)
    (h : setTp mprotect s.mem s.mc p = some t.mem) :
    t.mem.word p = p ∧
      ∀ m ∈ s.modules, ∀ i < m.tlsSize.toNat, t.mem (m.addr p i) = t.mem (m.addr s.mc i) := by
  have hnew := hs.created hfree
  have hupd := hnew.update_sound (t := t) List.mem_cons_self h
  have harea := hnew.areas p List.mem_cons_self
  simp only [Function.update_self] at hupd
  exact ⟨hupd.base.trans harea.base,hupd.fresh⟩

/-- A thread whose version is the master's has seen every module. -/
lemma seen_of_version (hs : s.Inv) (hp : p ∈ s.tps)
    (h : (readTcb s.mem p).version = (readTcb s.mem s.mc).version) :
    (s.threads p).seen = s.modules.length := by
  have hseen := (hs.areas p hp).seen
  have hcount := hs.master.count
  rw [(hs.areas p hp).tcb,hs.master.tcb] at h
  have hnat := congrArg BitVec.toNat h
  simp only [Extent.tcb,BitVec.toNat_ofNat] at hnat
  rwa [Nat.mod_eq_of_lt (by omega),Nat.mod_eq_of_lt hcount] at hnat

/-- Either path of `__tls_get_addr` leaves the thread with every module. -/
lemma getAddr_area (hs : s.Inv) (hp : p ∈ s.tps) {tlsModule offset a : Usize} {μ : Mem 64}
    (h : tlsGetAddr mprotect s.mem s.mc p tlsModule offset = some (a,μ)) :
    a = p+(tlsModule+offset) ∧
      AreaInv μ s.modules p ⟨s.modules.length,(s.threads p).written⟩ := by
  have harea := hs.areas p hp
  unfold tlsGetAddr at h
  split at h
  · rename_i hversion
    obtain ⟨haddr,rfl⟩ := Prod.mk.inj (Option.some.inj h)
    refine ⟨by rw [← haddr,harea.base,BitVec.add_comm],?_⟩
    rw [← hs.seen_of_version hp hversion.symm]
    exact harea
  · obtain ⟨μ',hμ,heq⟩ := Option.map_eq_some_iff.mp h
    obtain ⟨haddr,rfl⟩ := Prod.mk.inj heq
    have hupd := harea.update hs.master (hs.apart_master hp).1 hμ
    exact ⟨by rw [← haddr,hupd.base,BitVec.add_comm],hupd⟩

theorem sound (hs : s.Inv) : s.Sound := by
  refine ⟨fun m hm i hi => hs.image hm hi,fun p hp k t ht => ?_,fun p k t ht => ?_,
    fun p hp hversion => ?_,fun p hp m hm i hi k a μ ha => ?_⟩
  · simp only [worldStep,if_pos hp] at ht
    obtain ⟨μ,hμ,rfl⟩ := Option.map_eq_some_iff.mp ht
    exact hs.update_sound hp hμ
  · simp only [worldStep] at ht
    split at ht
    · rename_i hfree
      obtain ⟨μ,hμ,rfl⟩ := Option.map_eq_some_iff.mp ht
      exact hs.creation_sound hfree hμ
    · cases ht
  · have hseen := hs.seen_of_version hp hversion
    rw [(hs.areas p hp).tcb,hs.master.tcb,hseen,List.take_length]
    exact ⟨rfl,rfl⟩
  · obtain ⟨haddr,harea⟩ := hs.getAddr_area hp ha
    obtain ⟨hhas,hidx⟩ := hs.byte_has hm hi
    refine ⟨haddr.trans (addr_eq m p i).symm,?_⟩
    have hcontent := harea.content m (by rwa [List.take_length]) _ hhas
    rw [haddr,hcontent,hidx]

end TlsWorld.Inv

/-- TLS propagation and the version fast path are sound along every run whose loads fit. -/
theorem propagation_of_loadFits (m : Mem 64) (mc : Usize) (es : List TlsEvent)
    (h : Guarded worldStep LoadFits (TlsWorld.initial m mc) es) :
    Always worldStep TlsWorld.Sound (TlsWorld.initial m mc) es :=
  always_of_guarded (fun _ _ _ hs hc ht => hs.step hc ht) (fun _ hs => hs.sound)
    (initial_inv m mc) h

/-- A kernel that grants every request. -/
def willing : Mprotect := fun _ _ => true

/-- With such a kernel a thread can be created in any free place. -/
lemma exists_setTp {s : TlsWorld} {ptr : Usize} (hs : s.Inv) (hfree : s.Unmapped ptr) :
    ∃ t, worldStep s (.setTp ptr willing) = some t ∧ t.Inv ∧ t.mc = s.mc ∧
      t.modules = s.modules ∧ t.tps = ptr::s.tps := by
  have hsome : (setTp willing s.mem s.mc ptr).isSome := updateTls_isSome fun _ _ => rfl
  obtain ⟨μ,hμ⟩ := Option.isSome_iff_exists.mp hsome
  have hstep : worldStep s (.setTp ptr willing) = some { s with
      mem := μ
      tps := ptr::s.tps
      threads := Function.update s.threads ptr ⟨s.modules.length,fun _ => none⟩ } := by
    simp [worldStep,hfree,hμ]
  exact ⟨_,hstep,hs.step (e := .setTp ptr willing) trivial hstep,rfl,rfl,rfl⟩

lemma exists_update {s : TlsWorld} {p : Usize} (hp : p ∈ s.tps) :
    ∃ t, worldStep s (.updateTls p willing) = some t := by
  have hsome : (updateTls willing s.mem s.mc p).isSome := updateTls_isSome fun _ _ => rfl
  obtain ⟨μ,hμ⟩ := Option.isSome_iff_exists.mp hsome
  simp [worldStep,hp,hμ]

/-- The first load of a process. -/
lemma load_first {s : TlsWorld} (hs : s.Inv) (hempty : s.modules = []) (tlsSize tlsAlign : Usize)
    (execTls : Bool) (data : List Byte) {o : Usize} {r : Tls}
    (hres : (allocTls Tls.initial tlsSize tlsAlign execTls true).result = .ok o)
    (hstate : (allocTls Tls.initial tlsSize tlsAlign execTls true).state = r) :
    worldStep s (.load tlsSize tlsAlign execTls data) = some { s with
      mem := loadTls (writeTcb s.mem s.mc r.tcb) s.mc o data
      tlsOff := r.tlsOff
      modules := [⟨o,tlsSize,execTls,data⟩] } := by
  have htls : (⟨s.tlsOff,readTcb s.mem s.mc⟩ : Tls) = Tls.initial := by
    rw [hs.master.cursor,hs.master.tcb,hempty]
    rfl
  simp only [worldStep,TlsWorld.load,htls,hres,hstate,hempty]
  simp

/-- The area of a thread before the first load. -/
lemma area_first {s : TlsWorld} (hs : s.Inv) (hempty : s.modules = []) {p : Usize}
    (hp : p ∈ s.tps) : readTcb s.mem p = ⟨32#64,0#64,0#64⟩ := by
  have harea := hs.areas p hp
  have hseen := harea.seen
  rw [hempty,List.length_nil,Nat.le_zero] at hseen
  rw [harea.tcb,hempty,hseen]
  rfl

/-- The master copy of the runs below, and a thread in the reservation just below it. -/
def masterAt : Usize := 0x40000000#64

def threadAt : Usize := 0x3c000000#64

def startedWorld : TlsWorld := TlsWorld.initial (fun _ => 0) masterAt

lemma threadAt_unmapped : startedWorld.Unmapped threadAt := by
  intro q hq
  rw [List.mem_singleton.mp hq]
  decide

/-- A library loaded after the thread was created, and the thread's next update. -/
def lateLoad : List TlsEvent :=
  [.setTp threadAt willing,.load 8#64 8#64 false [1,2,3],.updateTls threadAt willing]

lemma lateLoad_fits : Guarded worldStep LoadFits startedWorld lateLoad := by
  obtain ⟨s,hs,hinv,-,hempty,-⟩ := exists_setTp (s := startedWorld) (initial_inv _ _)
    threadAt_unmapped
  intro s' hs'
  have hsame : s' = s := Option.some.inj (hs'.symm.trans hs)
  subst hsame
  refine ⟨trivial,fun _ _ => ⟨?_,fun _ _ => ⟨trivial,trivial⟩⟩⟩
  refine ⟨by decide,by decide,?_,?_⟩
  · rw [hinv.master.tcb,hempty]
    decide
  · rw [if_neg nofun,hinv.master.cursor,hempty]
    decide

theorem propagation_of_loadFits_lateLoad :
    (∃ t, run worldStep startedWorld lateLoad = some t) ∧
      Always worldStep TlsWorld.Sound startedWorld lateLoad := by
  refine ⟨?_,propagation_of_loadFits _ _ _ lateLoad_fits⟩
  obtain ⟨s,hs,hinv,-,hempty,htps⟩ := exists_setTp (s := startedWorld) (initial_inv _ _)
    threadAt_unmapped
  have hload := load_first hinv hempty 8#64 8#64 false [1,2,3] (o := 32#64)
    (r := ⟨40#64,⟨40#64,0#64,1#64⟩⟩) rfl rfl
  have hp : threadAt ∈ s.tps := htps ▸ List.mem_cons_self
  obtain ⟨t,ht⟩ := exists_update (s := { s with
    mem := loadTls (writeTcb s.mem s.mc ⟨40#64,0#64,1#64⟩) s.mc 32#64 [1,2,3]
    tlsOff := 40#64
    modules := [⟨32#64,8#64,false,[1,2,3]⟩] }) hp
  exact ⟨t,run_cons_of hs (run_cons_of hload (run_cons_of ht rfl))⟩

/-- A block that ends at the end of the address space: the sum of `alloc_tls` is 0. -/
def wrappingRun : List TlsEvent :=
  [.setTp threadAt willing,.load 0xffffffffffffffe0#64 1#64 false [],.updateTls threadAt willing]

/-- A `Tcb` with another `load_size`, as the file part of a block. -/
def forgedTcb : List Byte :=
  Bytes.toLE 8 threadAt.toNat++Bytes.toLE 8 99++Bytes.toLE 8 0++Bytes.toLE 8 1

/-- An executable whose block is as long as a whole reservation and so begins at the thread. -/
def oversizeRun : List TlsEvent :=
  [.setTp threadAt willing,.load 0x4000000#64 1#64 true forgedTcb]

/-- A thread as far as the master copy takes over the version, whatever the sizes are. -/
lemma update_not_behind {s : TlsWorld} {p : Usize} (hp : p ∈ s.tps) (hbase : s.mem.word p = p)
    (hload : ¬ (readTcb s.mem p).loadSize < (readTcb s.mem s.mc).loadSize)
    (hdyn : ¬ (readTcb s.mem p).dynSize < (readTcb s.mem s.mc).dynSize)
    (hapart : ∀ x ∈ reservation s.mc, x ∉ reservation p) :
    ∃ t, worldStep s (.updateTls p willing) = some t ∧ t.tps = s.tps ∧ t.mc = s.mc ∧
      readTcb t.mem s.mc = readTcb s.mem s.mc ∧
        readTcb t.mem p = { readTcb s.mem p with version := (readTcb s.mem s.mc).version } := by
  have hupdate : updateTls willing s.mem s.mc p = some _ := updateTls_of_not_lt hbase hload hdyn
  have hstep : worldStep s (.updateTls p willing) = some { s with
      mem := s.mem.setWord (p+24#64) (s.mem.word (s.mc+24#64))
      threads := Function.update s.threads p ⟨s.modules.length,(s.threads p).written⟩ } := by
    simp [worldStep,hp,hupdate]
  have hagree : ∀ j : Usize, j.toNat < 32 →
      s.mem.setWord (p+24#64) (s.mem.word (s.mc+24#64)) (s.mc+j) = s.mem (s.mc+j) :=
    tcb_of_apart (fun _ hj => setWord_beyond _ (by decide) hj) hapart
  exact ⟨_,hstep,rfl,rfl,readTcb_of_agree hagree,readTcb_setVersion _⟩

/-- The thread takes over the version although its `load_size` is not the master's. -/
lemma wrappingRun_end : ∃ t, run worldStep startedWorld wrappingRun = some t ∧ threadAt ∈ t.tps ∧
    readTcb t.mem threadAt = ⟨32#64,0#64,1#64⟩ ∧ readTcb t.mem t.mc = ⟨0#64,0#64,1#64⟩ := by
  obtain ⟨s,hs,hinv,-,hempty,htps⟩ := exists_setTp (s := startedWorld) (initial_inv _ _)
    threadAt_unmapped
  have hp : threadAt ∈ s.tps := htps ▸ List.mem_cons_self
  obtain ⟨hmaster,hthread⟩ := hinv.apart_master hp
  have hload := load_first hinv hempty 0xffffffffffffffe0#64 1#64 false [] (o := 32#64)
    (r := ⟨0#64,⟨0#64,0#64,1#64⟩⟩) rfl rfl
  -- no byte is copied, so the load only sets the master's sizes back to 0
  rw [loadTls_nil] at hload
  have hmtcb : readTcb (writeTcb s.mem s.mc ⟨0#64,0#64,1#64⟩) s.mc = ⟨0#64,0#64,1#64⟩ :=
    readTcb_writeTcb _
  have hagree := tcb_of_apart (m := s.mem)
    (fun _ hj => writeTcb_beyond (p := s.mc) ⟨0#64,0#64,1#64⟩ hj) hthread
  have htcb := (readTcb_of_agree hagree).trans (area_first hinv hempty hp)
  have hbase := (base_of_agree hagree).trans (hinv.areas threadAt hp).base
  obtain ⟨t,ht,htps',hmc,hmt,htt⟩ := update_not_behind (s := { s with
      mem := writeTcb s.mem s.mc ⟨0#64,0#64,1#64⟩
      tlsOff := 0#64
      modules := [⟨32#64,0xffffffffffffffe0#64,false,[]⟩] }) hp hbase
    (by dsimp only; rw [htcb,hmtcb]; decide) (by dsimp only; rw [htcb,hmtcb]; decide) hmaster
  refine ⟨t,run_cons_of hs (run_cons_of hload (run_cons_of ht rfl)),?_,?_,?_⟩
  · rw [htps']
    exact hp
  · rw [htt]
    dsimp only
    rw [htcb,hmtcb]
  · rw [hmc,hmt]
    exact hmtcb

/-- The load writes over the `Tcb` of the thread. -/
lemma oversizeRun_end : ∃ t, run worldStep startedWorld oversizeRun = some t ∧ threadAt ∈ t.tps ∧
    readTcb t.mem threadAt = ⟨99#64,0#64,1#64⟩ ∧
      readTcb t.mem t.mc = ⟨32#64,0x4000000#64,1#64⟩ := by
  obtain ⟨s,hs,hinv,hmc,hempty,htps⟩ := exists_setTp (s := startedWorld) (initial_inv _ _)
    threadAt_unmapped
  have hp : threadAt ∈ s.tps := htps ▸ List.mem_cons_self
  have hload := load_first hinv hempty 0x4000000#64 1#64 true forgedTcb
    (o := 0xfffffffffc000000#64) (r := ⟨32#64,⟨32#64,0x4000000#64,1#64⟩⟩) rfl rfl
  have hat : s.mc+0xfffffffffc000000#64 = threadAt := by
    rw [hmc]
    decide
  unfold loadTls at hload
  rw [hat] at hload
  refine ⟨_,run_cons_of hs (run_cons_of hload rfl),hp,?_,?_⟩
  · unfold readTcb
    dsimp only
    rw [word_fill _ _ _ (by decide) (by decide),word_fill _ _ _ (by decide) (by decide),
      word_fill _ _ _ (by decide) (by decide)]
    decide
  · have hbeyond : ∀ (m : Mem 64) (j : Usize), 32 ≤ j.toNat →
        m.fill threadAt forgedTcb.length (fun i => forgedTcb.getD i 0) (threadAt+j) =
          m (threadAt+j) := fun m j hj => by
      have h := fill_add_of_not_mem (m := m) (p := threadAt) (o := 0#64) (j := j)
        (n := forgedTcb.length) (fun i => forgedTcb.getD i 0) (by decide)
        (fun hc => absurd hc.2 (Nat.not_lt.mpr hj))
      rwa [BitVec.add_zero] at h
    rw [readTcb_of_agree (tcb_of_apart (hbeyond _) (hinv.apart_master hp).1)]
    exact readTcb_writeTcb _

/-- Equal versions with different sizes. -/
lemma not_always_sound {es : List TlsEvent} {a b : Tcb}
    (h : ∃ t, run worldStep startedWorld es = some t ∧ threadAt ∈ t.tps ∧
      readTcb t.mem threadAt = a ∧ readTcb t.mem t.mc = b)
    (hversion : a.version = b.version) (hload : a.loadSize ≠ b.loadSize) :
    ¬ Always worldStep TlsWorld.Sound startedWorld es := by
  intro hall
  obtain ⟨t,hrun,hp,ha,hb⟩ := h
  have hcurrent := (hall.last hrun).current threadAt hp
  rw [ha,hb] at hcurrent
  exact hload (hcurrent hversion).1

/-- The fast path is taken although the sizes differ, after a load whose sum wraps and after one
that leaves the reservation. -/
theorem unfitting_loads_pass_version_check :
    (∃ t, run worldStep startedWorld wrappingRun = some t ∧ threadAt ∈ t.tps ∧
      readTcb t.mem threadAt = ⟨32#64,0#64,1#64⟩ ∧ readTcb t.mem t.mc = ⟨0#64,0#64,1#64⟩) ∧
    ¬ Always worldStep TlsWorld.Sound startedWorld wrappingRun ∧
    (∃ t, run worldStep startedWorld oversizeRun = some t ∧ threadAt ∈ t.tps ∧
      readTcb t.mem threadAt = ⟨99#64,0#64,1#64⟩ ∧
        readTcb t.mem t.mc = ⟨32#64,0x4000000#64,1#64⟩) ∧
    ¬ Always worldStep TlsWorld.Sound startedWorld oversizeRun :=
  ⟨wrappingRun_end,not_always_sound wrappingRun_end rfl (by decide),oversizeRun_end,
    not_always_sound oversizeRun_end rfl (by decide)⟩

end WinterLily.Loader
