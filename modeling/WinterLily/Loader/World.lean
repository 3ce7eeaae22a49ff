import WinterLily.Loader.ThreadArea
import Mathlib

/-! TLS propagation: modules are loaded into the master copy, threads are created, catch up with
`update_tls` and write to their own blocks, in any order. A load is atomic under the write guard of
`LOAD_LOCK`, an update under the read guard. -/
namespace WinterLily.Loader
open WinterLily.Memory WinterLily.Transition

/-- What is known of a thread: how many modules its last update saw, and its own last store at each
offset. -/
structure TlsThread where
  seen : ℕ
  written : Usize → Option Byte

structure TlsWorld where
  mem : Mem 64
  mc : Usize
  tlsOff : Usize
  modules : List TlsModule
  /-- The thread pointers set so far. -/
  tps : List Usize
  threads : Usize → TlsThread

/-- `setup_tls_mc` in the middle of a fresh anonymous mapping. -/
def TlsWorld.initial (m : Mem 64) (mc : Usize) : TlsWorld where
  mem := writeTcb ((m.fill (reservation mc).addr tlsBlockSize.toNat fun _ => 0).setWord mc mc) mc
    Tls.initial.tcb
  mc := mc
  tlsOff := Tls.initial.tlsOff
  modules := []
  tps := []
  threads := fun _ => ⟨0,fun _ => none⟩

inductive TlsEvent
  | load (tlsSize tlsAlign : Usize) (execTls : Bool) (data : List Byte)
  | setTp (ptr : Usize) (mprotect : Mprotect)
  | updateTls (tp : Usize) (mprotect : Mprotect)
  | store (tp off : Usize) (b : Byte)

/-- A successful `alloc_tls` followed by `load_tls`; at most one module is the executable. -/
def TlsWorld.load (s : TlsWorld) (tlsSize tlsAlign : Usize) (execTls : Bool) (data : List Byte) :
    Option TlsWorld :=
  if execTls && s.modules.any TlsModule.execTls then none
  else
    let r := allocTls ⟨s.tlsOff,readTcb s.mem s.mc⟩ tlsSize tlsAlign execTls true
    match r.result with
    | .error _ => none
    | .ok off => some { s with
        mem := loadTls (writeTcb s.mem s.mc r.state.tcb) s.mc off data
        tlsOff := r.state.tlsOff
        modules := s.modules++[⟨off,tlsSize,execTls,data⟩] }

/-- The bytes that the thread at `tp` may write: the blocks its `Tcb` accounts for. -/
def TlsWorld.Owns (s : TlsWorld) (tp off : Usize) : Prop :=
  tp ∈ s.tps ∧
    Covers (readTcb s.mem tp).loadSize.toNat (readTcb s.mem tp).dynSize.toNat off

instance (s : TlsWorld) (tp off : Usize) : Decidable (s.Owns tp off) :=
  inferInstanceAs (Decidable (_ ∧ _))

/-- The mapping for a new thread is apart from those in use. -/
def TlsWorld.Unmapped (s : TlsWorld) (ptr : Usize) : Prop :=
  ∀ q ∈ s.mc::s.tps, (reservation q).meets (reservation ptr) = false

instance (s : TlsWorld) (ptr : Usize) : Decidable (s.Unmapped ptr) :=
  inferInstanceAs (Decidable (∀ q ∈ s.mc::s.tps, (reservation q).meets (reservation ptr) = false))

def worldStep (s : TlsWorld) : TlsEvent → Option TlsWorld
  | .load tlsSize tlsAlign execTls data => s.load tlsSize tlsAlign execTls data
  | .setTp ptr mprotect =>
    if s.Unmapped ptr then
      (setTp mprotect s.mem s.mc ptr).map fun m => { s with
        mem := m
        tps := ptr::s.tps
        threads := Function.update s.threads ptr ⟨s.modules.length,fun _ => none⟩ }
    else none
  | .updateTls tp mprotect =>
    if tp ∈ s.tps then
      (updateTls mprotect s.mem s.mc tp).map fun m => { s with
        mem := m
        threads := Function.update s.threads tp ⟨s.modules.length,(s.threads tp).written⟩ }
    else none
  | .store tp off b =>
    if s.Owns tp off then
      some { s with
        mem := s.mem.fill (tp+off) 1 fun _ => b
        threads := Function.update s.threads tp
          ⟨(s.threads tp).seen,Function.update (s.threads tp).written off (some b)⟩ }
    else none

/-- Where byte `i` of the module's block lies in the area at `p`. -/
def TlsModule.addr (m : TlsModule) (p : Usize) (i : ℕ) : Usize := p+m.off+BitVec.ofNat 64 i

/-- What an update of the thread at `p` does to its blocks. -/
structure Updated (s t : TlsWorld) (p : Usize) (seen : ℕ) : Prop where
  fresh : ∀ m ∈ s.modules.drop seen, ∀ i < m.tlsSize.toNat,
    t.mem (m.addr p i) = t.mem (m.addr s.mc i)
  kept : ∀ m ∈ s.modules.take seen, ∀ i < m.tlsSize.toNat,
    t.mem (m.addr p i) = s.mem (m.addr p i)
  base : t.mem.word p = s.mem.word p

/-- Propagation and the fast path are sound in a state, whichever thread updates next. -/
structure TlsWorld.Sound (s : TlsWorld) : Prop where
  images : ∀ m ∈ s.modules, ∀ i < m.tlsSize.toNat, s.mem (m.addr s.mc i) = m.image i
  updates : ∀ p ∈ s.tps, ∀ mprotect t, worldStep s (.updateTls p mprotect) = some t →
    Updated s t p (s.threads p).seen
  creations : ∀ p mprotect t, worldStep s (.setTp p mprotect) = some t →
    t.mem.word p = p ∧
      ∀ m ∈ s.modules, ∀ i < m.tlsSize.toNat, t.mem (m.addr p i) = t.mem (m.addr s.mc i)
  current : ∀ p ∈ s.tps, (readTcb s.mem p).version = (readTcb s.mem s.mc).version →
    (readTcb s.mem p).loadSize = (readTcb s.mem s.mc).loadSize ∧
      (readTcb s.mem p).dynSize = (readTcb s.mem s.mc).dynSize
  exposed : ∀ p ∈ s.tps, ∀ m ∈ s.modules, ∀ i < m.tlsSize.toNat, ∀ mprotect a μ,
    tlsGetAddr mprotect s.mem s.mc p m.off (BitVec.ofNat 64 i) = some (a,μ) →
      a = m.addr p i ∧
        μ a = ((s.threads p).written (m.off+BitVec.ofNat 64 i)).getD (m.image i)

/-- No sum of the load wraps: for a block below the thread pointer the rounded size stays within
its half of the reservation, otherwise the end of the block is computed without overflow, and the
version counter has a next value. The file part is no longer than the block. -/
def LoadFits (s : TlsWorld) : TlsEvent → Prop
  | .load tlsSize tlsAlign execTls data =>
    Align.IsPow2 tlsAlign ∧ data.length ≤ tlsSize.toNat ∧
      (readTcb s.mem s.mc).version.toNat+1 < 2^64 ∧
        if execTls then Align.up tlsSize.toNat tlsAlign.toNat ≤ (tlsBlockSize >>> 1).toNat
        else Align.up s.tlsOff.toNat tlsAlign.toNat+tlsSize.toNat < 2^64
  | _ => True

instance (s : TlsWorld) : (e : TlsEvent) → Decidable (LoadFits s e)
  | .load .. => inferInstanceAs (Decidable (_ ∧ _))
  | .setTp .. => isTrue trivial
  | .updateTls .. => isTrue trivial
  | .store .. => isTrue trivial

/-- The master copy: the blocks are laid out one after another, each holds its image, the rest of
the reservation is still zero and the `Tcb` records how far the blocks go and how many there are. -/
structure MasterInv (μ : Mem 64) (mc tlsOff : Usize) (l : List TlsModule) : Prop where
  laid : Extent.initial.Laid l
  count : l.length < 2^64
  tcb : readTcb μ mc = (Extent.initial.after l).tcb l.length
  cursor : tlsOff = BitVec.ofNat 64 (Extent.initial.after l).load
  image : ∀ m ∈ l, ∀ j, m.Has j → μ (mc+j) = m.image (j.toNat-m.off.toNat)
  blank : ∀ j, InArea j → 32 ≤ j.toNat → ¬ (Extent.initial.after l).Has j → μ (mc+j) = 0

/-- A thread's area: it is as the master copy was when the thread had seen `seen` modules, but for
the thread's own stores. -/
structure AreaInv (μ : Mem 64) (l : List TlsModule) (p : Usize) (th : TlsThread) : Prop where
  seen : th.seen ≤ l.length
  base : μ.word p = p
  tcb : readTcb μ p = (Extent.initial.after (l.take th.seen)).tcb th.seen
  content : ∀ m ∈ l.take th.seen, ∀ j, m.Has j →
    μ (p+j) = (th.written j).getD (m.image (j.toNat-m.off.toNat))
  unwritten : ∀ j, ¬ (Extent.initial.after (l.take th.seen)).Has j → th.written j = none

structure TlsWorld.Inv (s : TlsWorld) : Prop where
  master : MasterInv s.mem s.mc s.tlsOff s.modules
  areas : ∀ p ∈ s.tps, AreaInv s.mem s.modules p (s.threads p)
  apart : ∀ p ∈ s.mc::s.tps, ∀ q ∈ s.mc::s.tps, p ≠ q → ∀ x ∈ reservation p, x ∉ reservation q
  own : s.mc ∉ s.tps

section Frames

variable {μ μ' : Mem 64} {mc p tlsOff : Usize} {l l' : List TlsModule} {th : TlsThread}
  {m : TlsModule} {j : Usize}

lemma inArea_of_has {z : Extent} (hz : z.Ok) (hj : z.Has j) : InArea j ∧ 32 ≤ j.toNat := by
  have := hz.upper
  have := hz.below
  unfold Extent.Has Covers at hj
  unfold InArea
  omega

lemma MasterInv.ok (h : MasterInv μ mc tlsOff l) : (Extent.initial.after l).Ok :=
  h.laid.ok Extent.initial_ok

lemma MasterInv.split (h : MasterInv μ mc tlsOff l) (n : ℕ) :
    Extent.initial.Laid (l.take n) ∧ (Extent.initial.after (l.take n)).Laid (l.drop n) ∧
      (Extent.initial.after (l.take n)).after (l.drop n) = Extent.initial.after l := by
  have hlaid := h.laid
  rw [← List.take_append_drop n l,Extent.laid_append] at hlaid
  refine ⟨hlaid.1,hlaid.2,?_⟩
  rw [← Extent.after_append,List.take_append_drop]

/-- Nothing but the bytes of its reservation bears on the master copy. -/
lemma MasterInv.frame (h : MasterInv μ mc tlsOff l) (hμ : ∀ x ∈ reservation mc, μ' x = μ x) :
    MasterInv μ' mc tlsOff l := by
  have harea : ∀ j, InArea j → μ' (mc+j) = μ (mc+j) := fun j hj =>
    hμ _ ((mem_reservation mc j).mpr hj)
  refine ⟨h.laid,h.count,?_,h.cursor,fun m hm j hj => ?_,fun j hj h32 hn => ?_⟩
  · rw [readTcb_of_agree fun j hj => harea j (.inl (by omega)),h.tcb]
  · have hin := inArea_of_has h.ok (h.laid.blocks Extent.initial_ok hm hj).2
    rw [harea j hin.1,h.image m hm j hj]
  · rw [harea j hj,h.blank j hj h32 hn]

/-- Nor on a thread's area, and modules loaded later do not either. -/
lemma AreaInv.frame (h : AreaInv μ l p th) (hlaid : Extent.initial.Laid l)
    (hμ : ∀ x ∈ reservation p, μ' x = μ x) (l' : List TlsModule) : AreaInv μ' (l++l') p th := by
  have harea : ∀ j, InArea j → μ' (p+j) = μ (p+j) := fun j hj =>
    hμ _ ((mem_reservation p j).mpr hj)
  have htcb : ∀ j : Usize, j.toNat < 32 → μ' (p+j) = μ (p+j) := fun j hj =>
    harea j (.inl (by omega))
  have htake : (l++l').take th.seen = l.take th.seen := List.take_append_of_le_length h.seen
  refine ⟨?_,?_,?_,fun m hm j hj => ?_,?_⟩
  · rw [List.length_append]
    exact h.seen.trans (Nat.le_add_right _ _)
  · rw [base_of_agree htcb,h.base]
  · rw [readTcb_of_agree htcb,htake,h.tcb]
  · rw [htake] at hm
    have hblock := hlaid.blocks Extent.initial_ok (List.mem_of_mem_take hm) hj
    rw [harea j (inArea_of_has (hlaid.ok Extent.initial_ok) hblock.2).1,h.content m hm j hj]
  · rw [htake]
    exact h.unwritten

/-- The area's own extent and how it compares with the master copy's. -/
lemma MasterInv.behind (h : MasterInv μ mc tlsOff l) (n : ℕ) :
    (Extent.initial.after (l.take n)).Ok ∧
      (Extent.initial.after (l.take n)).Le (Extent.initial.after l) := by
  obtain ⟨hfront,hback,hall⟩ := h.split n
  have hok := hfront.ok Extent.initial_ok
  exact ⟨hok,hall ▸ hback.le hok⟩

end Frames

section Loads

variable {μ : Mem 64} {mc tlsOff : Usize} {l : List TlsModule} {m : TlsModule} {z : Extent}
  {j : Usize}

lemma Extent.after_exec (z : Extent) (l : List TlsModule) :
    (z.after l).exec = (z.exec || l.any TlsModule.execTls) := by
  induction l generalizing z with
  | nil => simp
  | cons m l ih =>
    rw [Extent.after_cons,ih,List.any_cons,Extent.grow]
    cases m.execTls <;> simp

/-- A block that fits does not go over the end of the address space. -/
lemma Extent.Fits.finish_le (h : z.Fits m) : m.off.toNat+m.tlsSize.toNat ≤ 2^64 := by
  obtain ⟨-,h⟩ := h
  have hoff := m.off.isLt
  cases hm : m.execTls with
  | true =>
    rw [hm,if_pos rfl] at h
    by_cases hsize : m.tlsSize.toNat = 0
    · omega
    · have := Extent.neg_toNat_add (x := m.off) (i := 0) (by omega)
      omega
  | false =>
    rw [hm,if_neg nofun] at h
    omega

/-- `load_tls` writes to the block only. -/
lemma loadTls_of_not_has (h : z.Fits m) (hj : ¬ m.Has j) :
    loadTls μ mc m.off m.data (mc+j) = μ (mc+j) := by
  have hlen := h.1
  have hfin := h.finish_le
  refine fill_add_of_not_mem _ (by omega) fun hc => hj ⟨hc.1,?_⟩
  omega

lemma loadTls_of_has (h : z.Fits m) (hzero : μ (mc+j) = 0) (hj : m.Has j) :
    loadTls μ mc m.off m.data (mc+j) = m.image (j.toNat-m.off.toNat) := by
  have hlen := h.1
  have hfin := h.finish_le
  obtain ⟨hlo,hhi⟩ := hj
  by_cases hfile : j.toNat < m.off.toNat+m.data.length
  · exact fill_add_of_mem _ (by omega) hlo hfile
  · have himage : m.image (j.toNat-m.off.toNat) = 0 :=
      List.getD_eq_default _ _ (by omega)
    rw [himage,← hzero]
    exact fill_add_of_not_mem _ (by omega) (by omega)

lemma loadTls_nil (m : Mem 64) (mc tlsModule : Usize) : loadTls m mc tlsModule [] = m := by
  funext x
  simp [loadTls,Mem.fill]

/-- The memory after a module that fits has been loaded. -/
def loaded (μ : Mem 64) (mc : Usize) (l : List TlsModule) (m : TlsModule) : Mem 64 :=
  loadTls (writeTcb μ mc (((Extent.initial.after l).grow m).tcb (l.length+1))) mc m.off m.data

lemma loaded_of_not_has (h : z.Fits m) (hj : ¬ m.Has j) (h32 : 32 ≤ j.toNat) :
    loaded μ mc l m (mc+j) = μ (mc+j) := by
  rw [loaded,loadTls_of_not_has h hj,writeTcb_beyond _ h32]

section Fitting

variable (h : MasterInv μ mc tlsOff l) (hfit : (Extent.initial.after l).Fits m)
include h hfit

lemma MasterInv.block_beyond (hj : m.Has j) :
    InArea j ∧ 32 ≤ j.toNat ∧ ¬ (Extent.initial.after l).Has j := by
  obtain ⟨hold,hnew⟩ := Extent.block_new h.ok hfit hj
  obtain ⟨harea,h32⟩ := inArea_of_has (Extent.grow_ok h.ok hfit) hnew
  exact ⟨harea,h32,hold⟩

lemma loaded_frame {x : Usize} (hx : x ∉ reservation mc) : loaded μ mc l m x = μ x :=
  frame_of_outside (fun _ hj => loaded_of_not_has hfit
    (fun hc => hj (h.block_beyond hfit hc).1) (le_of_not_inArea hj)) hx

theorem MasterInv.load (hcount : l.length+1 < 2^64) :
    MasterInv (loaded μ mc l m) mc
      (BitVec.ofNat 64 ((Extent.initial.after l).grow m).load) (l++[m]) := by
  have hafter : Extent.initial.after (l++[m]) = (Extent.initial.after l).grow m :=
    Extent.after_append _ _ _
  have htcb : ∀ j : Usize, j.toNat < 32 → ¬ m.Has j := fun j hj hc => by
    have := (h.block_beyond hfit hc).2.1
    omega
  refine ⟨Extent.laid_append.mpr ⟨h.laid,hfit,trivial⟩,?_,?_,?_,fun n hn j hj => ?_,
    fun j hj h32 hn => ?_⟩
  · rw [List.length_append]
    exact hcount
  · rw [hafter,List.length_append,loaded,
      readTcb_of_agree fun j hj => loadTls_of_not_has hfit (htcb j hj),readTcb_writeTcb]
    rfl
  · rw [hafter]
  · cases List.mem_append.mp hn with
    | inl hold =>
      -- an earlier block is within the old extent, the new one beyond it
      have hhas := (h.laid.blocks Extent.initial_ok hold hj).2
      have hnot : ¬ m.Has j := fun hc => (h.block_beyond hfit hc).2.2 hhas
      rw [loaded_of_not_has hfit hnot (inArea_of_has h.ok hhas).2,h.image n hold j hj]
    | inr hnew =>
      rw [List.mem_singleton.mp hnew] at hj ⊢
      obtain ⟨harea,h32,hbeyond⟩ := h.block_beyond hfit hj
      refine loadTls_of_has hfit ?_ hj
      rw [writeTcb_beyond _ h32,h.blank j harea h32 hbeyond]
  · rw [hafter] at hn
    have hnot : ¬ m.Has j := fun hc => hn (Extent.block_new h.ok hfit hc).2
    have hold : ¬ (Extent.initial.after l).Has j := fun hc =>
      hn ((Extent.le_grow h.ok hfit).has hc)
    rw [loaded_of_not_has hfit hnot h32,h.blank j hj h32 hold]

end Fitting

lemma allocTls_static {v off : Usize} {t : Tcb} (c : TlsCall)
    (h : (allocTls ⟨v,t⟩ c.tlsSize c.tlsAlign false true).result = .ok off) :
    ∃ next, tlsNext v c.tlsSize c.tlsAlign = some next ∧ off = Align.roundUp v c.tlsAlign ∧
      (allocTls ⟨v,t⟩ c.tlsSize c.tlsAlign false true).state = ⟨next,c.record v t⟩ := by
  cases hn : tlsNext v c.tlsSize c.tlsAlign with
  | none => simp [allocTls,hn] at h
  | some next =>
    simp only [allocTls,hn,commitTls] at h ⊢
    exact ⟨next,rfl,(Except.ok.inj h).symm,rfl⟩

/-- A module below the thread pointer, rounded to its alignment. -/
lemma allocTls_exec (s : Tls) (tlsSize : Usize) {tlsAlign : Usize}
    (hpow : Align.IsPow2 tlsAlign) :
    let off := Align.roundDown (-tlsSize) tlsAlign
    (allocTls s tlsSize tlsAlign true true).result = .ok off ∧
      (allocTls s tlsSize tlsAlign true true).state =
        { s with tcb := { s.tcb with dynSize := -off, version := s.tcb.version+1#64 } } := by
  intro off
  have hdvd : tlsAlign.toNat ∣ off.toNat := by
    rw [Align.roundDown_toNat hpow]
    exact Dvd.intro_left _ rfl
  have hround : Align.roundUp off tlsAlign = off := Align.roundUp_of_dvd hpow hdvd
  simp [allocTls,commitTls,off,hround]

lemma Extent.Ok.load_toNat (hz : z.Ok) : (BitVec.ofNat 64 z.load).toNat = z.load := by
  have := hz.upper
  rw [BitVec.toNat_ofNat]
  exact Nat.mod_eq_of_lt (by omega)

lemma Extent.Ok.dyn_toNat (hz : z.Ok) : (BitVec.ofNat 64 z.dyn).toNat = z.dyn := by
  have := hz.below
  rw [BitVec.toNat_ofNat]
  exact Nat.mod_eq_of_lt (by omega)

/-- The statics of the loader that record the extent. -/
def Extent.tls (z : Extent) (version : ℕ) : Tls := ⟨BitVec.ofNat 64 z.load,z.tcb version⟩

lemma version_succ (n : ℕ) : BitVec.ofNat 64 n+1#64 = BitVec.ofNat 64 (n+1) :=
  BitVec.ofNat_add_ofNat n 1

section Alloc

variable {n : ℕ} {off tlsSize tlsAlign : Usize} {data : List Byte} (hz : z.Ok)
  (hpow : Align.IsPow2 tlsAlign) (hdata : data.length ≤ tlsSize.toNat)
include hpow hdata

lemma alloc_exec_fits (hexec : z.exec = false)
    (hsum : Align.up tlsSize.toNat tlsAlign.toNat ≤ 2^25)
    (h : (allocTls (z.tls n) tlsSize tlsAlign true true).result = .ok off) :
    z.Fits ⟨off,tlsSize,true,data⟩ ∧ (allocTls (z.tls n) tlsSize tlsAlign true true).state =
      (z.grow ⟨off,tlsSize,true,data⟩).tls (n+1) := by
  obtain ⟨hres,hstate⟩ := allocTls_exec (z.tls n) tlsSize hpow
  rw [hres] at h
  cases h
  have hneg := Align.neg_roundDown_neg_toNat (v := tlsSize) hpow (by omega)
  have hge := Align.le_up (n := tlsSize.toNat) hpow.pos
  have hdyn : ∀ x : Usize, BitVec.ofNat 64 (-x).toNat = -x := fun x => by
    rw [BitVec.ofNat_toNat,BitVec.setWidth_eq]
  refine ⟨⟨hdata,?_⟩,?_⟩
  · rw [if_pos rfl]
    exact ⟨hexec,by dsimp only; omega,by dsimp only; omega⟩
  · rw [hstate]
    change _ = (Extent.mk z.load (-Align.roundDown (-tlsSize) tlsAlign).toNat true).tls (n+1)
    simp only [Extent.tls,Extent.tcb,hdyn,version_succ]

include hz

lemma alloc_static_fits
    (hsum : Align.up (BitVec.ofNat 64 z.load).toNat tlsAlign.toNat+tlsSize.toNat < 2^64)
    (h : (allocTls (z.tls n) tlsSize tlsAlign false true).result = .ok off) :
    z.Fits ⟨off,tlsSize,false,data⟩ ∧ (allocTls (z.tls n) tlsSize tlsAlign false true).state =
      (z.grow ⟨off,tlsSize,false,data⟩).tls (n+1) := by
  let c : TlsCall := ⟨⟨tlsSize,tlsAlign⟩,hpow⟩
  obtain ⟨next,hnext,hoff,hstate⟩ := allocTls_static c h
  obtain ⟨hsumeq,hle⟩ := tlsNext_eq hnext
  have hv := hz.load_toNat
  have hupper := hz.upper
  have hoffNat : off.toNat = Align.up z.load tlsAlign.toNat := by
    rw [hoff,c.off_toNat (by omega),hv]
  have hnextNat : next.toNat = off.toNat+tlsSize.toNat := by
    rw [hsumeq,c.next_toNat (by omega) hsum,hoffNat]
    unfold TlsLayout.finish
    rw [hv]
  have hnextEq : BitVec.ofNat 64 (off.toNat+tlsSize.toNat) = next := by
    rw [← hnextNat,BitVec.ofNat_toNat,BitVec.setWidth_eq]
  have hge := Align.le_up (n := z.load) hpow.pos
  refine ⟨⟨hdata,?_⟩,?_⟩
  · rw [if_neg nofun]
    dsimp only
    omega
  · refine hstate.trans ?_
    change _ = (Extent.mk (off.toNat+tlsSize.toNat) z.dyn z.exec).tls (n+1)
    simp only [Extent.tls,Extent.tcb,TlsLayout.record,version_succ,hnextEq]
    congr 2
    rw [hsumeq]
    ring

end Alloc

variable {s t : TlsWorld} {tlsSize tlsAlign : Usize} {execTls : Bool} {data : List Byte}

/-- What a load that meets the condition is: a module that fits, with the new extent recorded. -/
theorem load_spec (h : MasterInv s.mem s.mc s.tlsOff s.modules)
    (hc : LoadFits s (.load tlsSize tlsAlign execTls data))
    (hload : s.load tlsSize tlsAlign execTls data = some t) :
    ∃ m, (Extent.initial.after s.modules).Fits m ∧ s.modules.length+1 < 2^64 ∧
      t = { s with
        mem := loaded s.mem s.mc s.modules m
        tlsOff := BitVec.ofNat 64 ((Extent.initial.after s.modules).grow m).load
        modules := s.modules++[m] } := by
  obtain ⟨hpow,hdata,hversion,hsum⟩ := hc
  have hcount : s.modules.length+1 < 2^64 := by
    have hlen := h.count
    rw [h.tcb] at hversion
    change (BitVec.ofNat 64 s.modules.length).toNat+1 < 2^64 at hversion
    rwa [BitVec.toNat_ofNat,Nat.mod_eq_of_lt hlen] at hversion
  unfold TlsWorld.load at hload
  split at hload
  · cases hload
  · rename_i hone
    dsimp only at hload
    split at hload
    · cases hload
    · rename_i off hres
      have htls : (⟨s.tlsOff,readTcb s.mem s.mc⟩ : Tls) =
          (Extent.initial.after s.modules).tls s.modules.length := by
        rw [h.cursor,h.tcb]
        rfl
      rw [htls] at hres hload
      have hfit : (Extent.initial.after s.modules).Fits ⟨off,tlsSize,execTls,data⟩ ∧
          (allocTls ((Extent.initial.after s.modules).tls s.modules.length) tlsSize tlsAlign
            execTls true).state = ((Extent.initial.after s.modules).grow
              ⟨off,tlsSize,execTls,data⟩).tls (s.modules.length+1) := by
        cases execTls with
        | false =>
          rw [if_neg nofun,h.cursor] at hsum
          exact alloc_static_fits h.ok hpow hdata hsum hres
        | true =>
          rw [if_pos rfl] at hsum
          refine alloc_exec_fits hpow hdata ?_ hsum hres
          rw [Extent.after_exec]
          simpa [Extent.initial] using hone
      obtain ⟨hfit,hstate⟩ := hfit
      rw [hstate] at hload
      exact ⟨⟨off,tlsSize,execTls,data⟩,hfit,hcount,(Option.some.inj hload).symm⟩

end Loads

section Threads

variable {μ μ' : Mem 64} {mc p tlsOff : Usize} {l : List TlsModule} {th : TlsThread}
  {mprotect : Mprotect}

/-- `update_tls` leaves every byte outside the area of the thread. -/
lemma Synced.frame {z y : Extent} {v : ℕ} (h : Synced μ μ' mc p z y v) (hy : y.Ok) {x : Usize}
    (hx : x ∉ reservation p) : μ' x = μ x :=
  h.filled.frame (fun _ hj => (inArea_of_has hy hj.1).1) hx

lemma AreaInv.synced (h : AreaInv μ l p th) (hmaster : MasterInv μ mc tlsOff l)
    (hapart : ∀ x ∈ reservation mc, x ∉ reservation p) (hu : updateTls mprotect μ mc p = some μ') :
    Synced μ μ' mc p (Extent.initial.after (l.take th.seen)) (Extent.initial.after l) l.length :=
  have hbehind := hmaster.behind th.seen
  updateTls_spec hbehind.1 hmaster.ok hbehind.2 hmaster.tcb h.base h.tcb hapart hu

section Sync

variable (h : AreaInv μ l p th) (hmaster : MasterInv μ mc tlsOff l)
  (hapart : ∀ x ∈ reservation mc, x ∉ reservation p) (hu : updateTls mprotect μ mc p = some μ')
include h hmaster hapart hu

/-- The blocks of the modules that the thread has not seen come from the master copy. -/
lemma AreaInv.update_fresh {m : TlsModule} {j : Usize} (hm : m ∈ l.drop th.seen) (hj : m.Has j) :
    μ' (p+j) = μ (mc+j) := by
  obtain ⟨-,hback,hall⟩ := hmaster.split th.seen
  obtain ⟨hold,hnew⟩ := hback.blocks (hmaster.behind th.seen).1 hm hj
  exact (h.synced hmaster hapart hu).filled.new j ⟨hall ▸ hnew,hold⟩

/-- Those it has seen are left as they are. -/
lemma AreaInv.update_kept {m : TlsModule} {j : Usize} (hm : m ∈ l.take th.seen) (hj : m.Has j) :
    μ' (p+j) = μ (p+j) := by
  obtain ⟨hfront,-,-⟩ := hmaster.split th.seen
  have hhas := (hfront.blocks Extent.initial_ok hm hj).2
  have h32 := (inArea_of_has (hmaster.behind th.seen).1 hhas).2
  exact (h.synced hmaster hapart hu).filled.old j h32 fun hc => hc.2 hhas

/-- After the update the thread has seen everything. -/
theorem AreaInv.update : AreaInv μ' l p ⟨l.length,th.written⟩ := by
  have hsync := h.synced hmaster hapart hu
  refine ⟨le_refl _,?_,?_,fun m hm j hj => ?_,fun j hj => ?_⟩
  · rw [hsync.base,h.base]
  · rw [List.take_length]
    exact hsync.tcb
  · rw [List.take_length] at hm
    obtain ⟨-,hback,-⟩ := hmaster.split th.seen
    rw [← List.take_append_drop th.seen l] at hm
    cases List.mem_append.mp hm with
    | inl hseen =>
      rw [h.update_kept hmaster hapart hu hseen hj,h.content m hseen j hj]
    | inr hnew =>
      have hold := (hback.blocks (hmaster.behind th.seen).1 hnew hj).1
      rw [h.update_fresh hmaster hapart hu hnew hj,hmaster.image m (List.mem_of_mem_drop hnew) j hj,
        h.unwritten j hold]
      rfl
  · rw [List.take_length] at hj
    exact h.unwritten j fun hc => hj ((hmaster.behind th.seen).2.has hc)

end Sync

/-- The memory on which `set_tp` calls `update_tls`. -/
def prepared (μ : Mem 64) (ptr : Usize) : Mem 64 :=
  writeTcb (μ.setWord ptr ptr) ptr ⟨tcbSize,0#64,0#64⟩

lemma prepared_area (μ : Mem 64) (l : List TlsModule) (p : Usize) :
    AreaInv (prepared μ p) l p ⟨0,fun _ => none⟩ := by
  refine ⟨Nat.zero_le _,?_,readTcb_writeTcb _,fun m hm => ?_,fun _ _ => rfl⟩
  · rw [prepared,base_writeTcb,word_setWord (by decide)]
  · cases hm

lemma prepared_beyond (μ : Mem 64) {p j : Usize} (hj : 32 ≤ j.toNat) :
    prepared μ p (p+j) = μ (p+j) := by
  have hbase := setWord_beyond (m := μ) (p := p) (k := 0#64) p (by decide) hj
  rw [BitVec.add_zero] at hbase
  rw [prepared,writeTcb_beyond _ hj,hbase]

lemma prepared_frame (μ : Mem 64) {p x : Usize} (hx : x ∉ reservation p) :
    prepared μ p x = μ x := frame_of_beyond (fun _ hj => prepared_beyond μ hj) hx

/-- The thread's own store. -/
lemma AreaInv.store (h : AreaInv μ l p th) (hz : (Extent.initial.after (l.take th.seen)).Ok)
    {off : Usize} (hoff : (Extent.initial.after (l.take th.seen)).Has off) (b : Byte) :
    AreaInv (μ.fill (p+off) 1 fun _ => b) l p
      ⟨th.seen,Function.update th.written off (some b)⟩ := by
  have h32 := (inArea_of_has hz hoff).2
  rw [fill_one]
  have hne : ∀ j, j ≠ off → Function.update μ (p+off) b (p+j) = μ (p+j) := fun j hj =>
    Function.update_of_ne (fun hc => hj (add_left_cancel hc)) _ _
  have htcb : ∀ j : Usize, j.toNat < 32 → Function.update μ (p+off) b (p+j) = μ (p+j) :=
    fun j hj => hne j fun hc => by
      rw [hc] at hj
      omega
  refine ⟨h.seen,?_,?_,fun m hm j hj => ?_,fun j hj => ?_⟩
  · rw [base_of_agree htcb,h.base]
  · rw [readTcb_of_agree htcb,h.tcb]
  · by_cases hjo : j = off
    · subst hjo
      simp
    · rw [hne j hjo,h.content m hm j hj]
      simp [hjo]
  · have hjo : j ≠ off := fun hc => hj (hc ▸ hoff)
    dsimp only
    rw [Function.update_of_ne hjo,h.unwritten j hj]

end Threads

end WinterLily.Loader
