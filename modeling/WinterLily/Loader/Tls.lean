import WinterLily.Base.Interval
import WinterLily.Base.Transition
import WinterLily.Loader.Basic
import Mathlib

/-! `FdLoader::alloc_tls`: a cursor for the static blocks, the range it makes writable and the
sizes it records in the master TCB. Offsets are relative to `TLS_MC`. -/
namespace WinterLily.Loader
open WinterLily.Transition

/-- `TLS_BLOCK_SIZE`. -/
def tlsBlockSize : Usize := 0x4000000#64

/-- `size_of::<Tcb>()`: four words, aligned to 32. -/
def tcbSize : Usize := 32#64

/-- The fields of the master `Tcb` that `alloc_tls` updates. -/
structure Tcb where
  loadSize : Usize
  dynSize : Usize
  version : Usize
  deriving DecidableEq, Repr

structure Tls where
  tlsOff : Usize
  tcb : Tcb
  deriving DecidableEq, Repr

/-- The statics as `LOADER` and `setup_tls_mc` leave them. -/
def Tls.initial : Tls := ⟨tcbSize,⟨tcbSize,0#64,0#64⟩⟩

/-- The closure of `fetch_update`. -/
def tlsNext (v tlsSize tlsAlign : Usize) : Option Usize :=
  let next := Align.roundUp v tlsAlign+tlsSize
  if next > tlsBlockSize >>> 1 then none else some next

/-- What `alloc_tls` returns, the `mprotect` it issued (offset and length) and the new statics. -/
structure Allocated where
  result : Except Error Usize
  protect : Option (Usize × Usize)
  state : Tls

/-- The part of `alloc_tls` after `val` is known; `granted` is the kernel's answer. -/
def commitTls (s : Tls) (val tlsSize tlsAlign : Usize) (execTls granted : Bool) : Allocated :=
  let alignedVal := Align.roundUp val tlsAlign
  let page := pageDown val
  let mapLen := tlsSize+(alignedVal-page)
  if !granted then ⟨.error .allocError,some (page,mapLen),s⟩
  else
    let tcb := { s.tcb with version := s.tcb.version+1#64 }
    if !execTls then
      ⟨.ok alignedVal,some (page,mapLen),
        { s with tcb := { tcb with loadSize := tcb.loadSize+(tlsSize+(alignedVal-val)) } }⟩
    else ⟨.ok alignedVal,some (page,mapLen),{ s with tcb := { tcb with dynSize := -alignedVal } }⟩

def allocTls (s : Tls) (tlsSize tlsAlign : Usize) (execTls granted : Bool) : Allocated :=
  if !execTls then
    match tlsNext s.tlsOff tlsSize tlsAlign with
    | none => ⟨.error .allocError,none,s⟩
    | some next => commitTls { s with tlsOff := next } s.tlsOff tlsSize tlsAlign execTls granted
  else commitTls s (Align.roundDown (-tlsSize) tlsAlign) tlsSize tlsAlign execTls granted

/-- The block a module asks for. -/
structure TlsLayout where
  tlsSize : Usize
  tlsAlign : Usize

/-- A request for a static block with a proper alignment. -/
structure TlsCall extends TlsLayout where
  pow2 : Align.IsPow2 tlsAlign

/-- A block handed out, with the range made writable for it. -/
structure Grant where
  off : Usize
  tlsSize : Usize
  tlsAlign : Usize
  page : Usize
  mapLen : Usize
  deriving DecidableEq, Repr

/-- The block as the caller reads it: the returned offset is signed. -/
def Grant.block (g : Grant) : ℤ × ℤ := (g.off.toInt,g.off.toInt+g.tlsSize.toNat)

structure TlsRun where
  tls : Tls
  granted : List Grant

def TlsRun.initial : TlsRun := ⟨Tls.initial,[]⟩

/-- One non-executable call whose `mprotect`, if it comes to that, succeeds. -/
def tlsStep (s : TlsRun) (c : TlsCall) : Option TlsRun :=
  let r := allocTls s.tls c.tlsSize c.tlsAlign false true
  match r.result,r.protect with
  | .ok off,some (page,mapLen) =>
    some ⟨r.state,s.granted++[⟨off,c.tlsSize,c.tlsAlign,page,mapLen⟩]⟩
  | _,_ => some ⟨r.state,s.granted⟩

/-- The end of the block over the naturals. -/
def TlsLayout.finish (c : TlsLayout) (v : Usize) : ℕ :=
  Align.up v.toNat c.tlsAlign.toNat+c.tlsSize.toNat

/-- Neither sum of the call exceeds the word size. -/
def SumsBounded (s : TlsRun) (c : TlsCall) : Prop :=
  s.tls.tlsOff.toNat+(c.tlsAlign.toNat-1) ≤ 2^64 ∧ c.finish s.tls.tlsOff ≤ 2^64

/-- The block ends strictly below it. -/
def SumsFit (s : TlsRun) (c : TlsCall) : Prop := c.finish s.tls.tlsOff < 2^64

instance (s : TlsRun) (c : TlsCall) : Decidable (SumsBounded s c) :=
  inferInstanceAs (Decidable (_ ∧ _))

/-- What the layout promises of one block. -/
structure Grant.Sound (g : Grant) : Prop where
  aligned : (g.tlsAlign.toNat : ℤ) ∣ g.off.toInt
  lower : (tcbSize.toNat : ℤ) ≤ g.block.1
  upper : g.block.2 ≤ (tlsBlockSize >>> 1).toNat
  covered : g.page.toInt ≤ g.block.1 ∧ g.block.2 ≤ g.page.toInt+g.mapLen.toNat

/-- What it promises of the whole of them, and of the master TCB. -/
structure TlsRun.Sound (s : TlsRun) : Prop where
  disjoint : (s.granted.map Grant.block).Pairwise Interval.Apart
  blocks : ∀ g ∈ s.granted, g.Sound
  recorded : s.tls.tcb.loadSize = s.tls.tlsOff

/-- The invariant: the blocks lie one after another below the cursor. -/
structure TlsInv (s : TlsRun) : Prop where
  cursor : s.tls.tlsOff.toNat ≤ 2^25
  packed : Interval.Packed (32 : ℤ) (s.granted.map Grant.block) s.tls.tlsOff.toNat
  blocks : ∀ g ∈ s.granted, g.Sound
  recorded : s.tls.tcb.loadSize = s.tls.tlsOff

theorem TlsInv.sound {s : TlsRun} (h : TlsInv s) : s.Sound := ⟨h.packed.apart,h.blocks,h.recorded⟩

theorem initial_tlsInv : TlsInv TlsRun.initial :=
  ⟨by decide,by simp [TlsRun.initial,Interval.Packed,Tls.initial,tcbSize],by simp [TlsRun.initial],
    rfl⟩

/-- The block a call gets when the cursor stands at `v`. -/
def TlsCall.grant (c : TlsCall) (v : Usize) : Grant :=
  let off := Align.roundUp v c.tlsAlign
  ⟨off,c.tlsSize,c.tlsAlign,pageDown v,c.tlsSize+(off-pageDown v)⟩

/-- The master TCB after that call. -/
def TlsLayout.record (c : TlsLayout) (v : Usize) (tcb : Tcb) : Tcb :=
  { tcb with
    loadSize := tcb.loadSize+(c.tlsSize+(Align.roundUp v c.tlsAlign-v))
    version := tcb.version+1#64 }

lemma tlsStep_eq (s : TlsRun) (c : TlsCall) :
    tlsStep s c = some (match tlsNext s.tls.tlsOff c.tlsSize c.tlsAlign with
      | none => s
      | some next => ⟨⟨next,c.record s.tls.tlsOff s.tls.tcb⟩,
          s.granted++[c.grant s.tls.tlsOff]⟩) := by
  cases h : tlsNext s.tls.tlsOff c.tlsSize c.tlsAlign with
  | none => simp [tlsStep,allocTls,h]
  | some next => simp [tlsStep,allocTls,h,commitTls,TlsCall.grant,TlsLayout.record]

section Words

variable {c : TlsCall} {v : Usize}

lemma TlsCall.align_le (c : TlsCall) : c.tlsAlign.toNat ≤ 2^63 := by
  obtain ⟨k,hk,ha⟩ := c.pow2
  rw [ha,Align.two_pow_toNat hk]
  exact Nat.pow_le_pow_right (by omega) (by omega)

/-- Below the end of the area the rounding never wraps. -/
lemma TlsCall.off_toNat (c : TlsCall) (hv : v.toNat ≤ 2^25) :
    (Align.roundUp v c.tlsAlign).toNat = Align.up v.toNat c.tlsAlign.toNat := by
  have := c.align_le
  exact Align.roundUp_toNat c.pow2 (by omega)

lemma TlsCall.next_toNat (hv : v.toNat ≤ 2^25) (hf : c.finish v < 2^64) :
    (Align.roundUp v c.tlsAlign+c.tlsSize).toNat = c.finish v := by
  rw [BitVec.toNat_add,c.off_toNat hv]
  exact Nat.mod_eq_of_lt hf

lemma toInt_of_small {x : Usize} (h : x.toNat ≤ 2^25) : x.toInt = x.toNat := by
  rw [BitVec.toInt_eq_toNat_cond,if_pos (by omega)]

/-- A block that ends inside the area is where the naturals put it, and its range covers it. -/
lemma TlsCall.grant_block (hv : v.toNat ≤ 2^25) (hf : c.finish v ≤ 2^25) :
    (c.grant v).block.1 = Align.up v.toNat c.tlsAlign.toNat ∧
      (c.grant v).block.2 = c.finish v := by
  have hoff := c.off_toNat hv
  have hint : (Align.roundUp v c.tlsAlign).toInt = (Align.up v.toNat c.tlsAlign.toNat : ℕ) := by
    rw [← hoff]
    apply toInt_of_small
    unfold TlsLayout.finish at hf
    omega
  simp [Grant.block,grant,hint,TlsLayout.finish]

lemma TlsCall.grant_sound (hlo : 32 ≤ v.toNat) (hv : v.toNat ≤ 2^25)
    (hf : c.finish v ≤ 2^25) : (c.grant v).Sound := by
  obtain ⟨hstart,hend⟩ := grant_block hv hf
  have hle := Align.le_up (n := v.toNat) c.pow2.pos
  have hpage : (pageDown v).toNat ≤ v.toNat := by
    rw [pageDown_toNat]
    exact Align.down_le _ _
  have hoff := c.off_toNat hv
  have hlen : (c.grant v).mapLen.toNat = c.finish v-(pageDown v).toNat := by
    have hsub : (Align.roundUp v c.tlsAlign-pageDown v).toNat =
        Align.up v.toNat c.tlsAlign.toNat-(pageDown v).toNat := by
      rw [BitVec.toNat_sub_of_le,hoff]
      rw [BitVec.le_def,hoff]
      omega
    simp only [grant]
    unfold TlsLayout.finish at hf ⊢
    rw [BitVec.toNat_add,hsub,Nat.mod_eq_of_lt (by omega)]
    omega
  have hpint : (c.grant v).page.toInt = (pageDown v).toNat :=
    toInt_of_small (x := pageDown v) (by omega)
  refine ⟨?_,?_,?_,?_,?_⟩
  · change _ ∣ (c.grant v).block.1
    rw [hstart]
    exact Int.natCast_dvd_natCast.mpr (Align.dvd_up v.toNat c.tlsAlign.toNat)
  · rw [hstart]
    change (32 : ℤ) ≤ _
    omega
  · rw [hend]
    change _ ≤ ((2^25 : ℕ) : ℤ)
    exact_mod_cast hf
  · rw [hstart,hpint]
    exact_mod_cast hpage.trans hle
  · rw [hend,hpint,hlen]
    unfold TlsLayout.finish at hf ⊢
    omega

end Words

lemma tlsNext_eq {v tlsSize tlsAlign next : Usize} (h : tlsNext v tlsSize tlsAlign = some next) :
    next = Align.roundUp v tlsAlign+tlsSize ∧ next.toNat ≤ 2^25 := by
  simp only [tlsNext] at h
  split at h
  · contradiction
  · rename_i hn
    cases h
    exact ⟨rfl,Nat.le_of_not_lt hn⟩

/-- A call whose block does not wrap keeps the invariant. -/
theorem tlsInv_step {s t : TlsRun} {c : TlsCall} (hs : TlsInv s) (hc : SumsFit s c)
    (h : tlsStep s c = some t) : TlsInv t := by
  rw [tlsStep_eq] at h
  cases hn : tlsNext s.tls.tlsOff c.tlsSize c.tlsAlign with
  | none =>
    simp only [hn,Option.some.injEq] at h
    rwa [← h]
  | some next =>
    simp only [hn,Option.some.injEq] at h
    subst h
    obtain ⟨hnext,hle⟩ := tlsNext_eq hn
    have hfin : next.toNat = c.finish s.tls.tlsOff := by
      rw [hnext]
      exact TlsCall.next_toNat hs.cursor hc
    have hlo : 32 ≤ s.tls.tlsOff.toNat := by exact_mod_cast hs.packed.le
    obtain ⟨hstart,hend⟩ := TlsCall.grant_block hs.cursor (hfin ▸ hle)
    have hup := Align.le_up (n := s.tls.tlsOff.toNat) c.pow2.pos
    refine ⟨hle,?_,?_,?_⟩
    · rw [hfin,← hend,List.map_append]
      apply hs.packed.concat
      · rw [hstart]
        exact_mod_cast hup
      · rw [hstart,hend]
        unfold TlsLayout.finish
        omega
    · intro g hg
      rcases List.mem_append.mp hg with hg | hg
      · exact hs.blocks g hg
      · rw [List.mem_singleton.mp hg]
        exact TlsCall.grant_sound hlo hs.cursor (hfin ▸ hle)
    · simp only [TlsLayout.record,hs.recorded,hnext]
      ring

/-- A call whose block ends exactly at the word size is granted all the same. -/
lemma not_sound_of_wrap {s t : TlsRun} {c : TlsCall} (hs : TlsInv s) (hb : SumsBounded s c)
    (hc : ¬ SumsFit s c) (h : tlsStep s c = some t) : ¬ t.Sound := by
  have hfin : c.finish s.tls.tlsOff = 2^64 := by
    unfold SumsFit at hc
    have := hb.2
    omega
  have hoff := c.off_toNat hs.cursor
  have hnext : tlsNext s.tls.tlsOff c.tlsSize c.tlsAlign = some 0#64 := by
    have hz : Align.roundUp s.tls.tlsOff c.tlsAlign+c.tlsSize = 0#64 := by
      apply BitVec.eq_of_toNat_eq
      rw [BitVec.toNat_add,hoff]
      change c.finish s.tls.tlsOff % 2^64 = 0
      rw [hfin]
      rfl
    simp [tlsNext,hz]
  rw [tlsStep_eq,hnext] at h
  cases h
  intro hsound
  have hg := hsound.blocks (c.grant s.tls.tlsOff) (by simp)
  have hlo := hg.lower
  have hhi := hg.upper
  change (32 : ℤ) ≤ (Align.roundUp s.tls.tlsOff c.tlsAlign).toInt at hlo
  change (Align.roundUp s.tls.tlsOff c.tlsAlign).toInt+c.tlsSize.toNat ≤ (2^25 : ℤ) at hhi
  unfold TlsLayout.finish at hfin
  rw [BitVec.toInt_eq_toNat_cond,hoff] at hlo hhi
  split at hlo <;> omega

/-- In a run of non-executable calls whose sums never exceed the word size, the layout promise
holds throughout exactly when no block ends at the word size itself. -/
theorem tls_layout_iff (cs : List TlsCall)
    (h : Guarded tlsStep SumsBounded TlsRun.initial cs) :
    Always tlsStep TlsRun.Sound TlsRun.initial cs ↔
      Guarded tlsStep SumsFit TlsRun.initial cs :=
  always_iff_guarded_within (I := TlsInv) (fun _ _ _ hs _ hc ht => tlsInv_step hs hc ht)
    (fun _ hs => hs.sound) (fun _ _ _ hs hb hc ht => not_sound_of_wrap hs hb hc ht)
    initial_tlsInv h

/-- Two blocks, the second of them on a page boundary. -/
def twoBlocks : List TlsCall :=
  [⟨⟨100#64,16#64⟩,⟨4,by omega,rfl⟩⟩,⟨⟨8#64,4096#64⟩,page_pow2⟩]

theorem tls_layout_iff_twoBlocks :
    Guarded tlsStep SumsBounded TlsRun.initial twoBlocks ∧
      (Always tlsStep TlsRun.Sound TlsRun.initial twoBlocks ↔
        Guarded tlsStep SumsFit TlsRun.initial twoBlocks) := by
  have h : Guarded tlsStep SumsBounded TlsRun.initial twoBlocks := by decide
  exact ⟨h,tls_layout_iff twoBlocks h⟩

/-- A block that runs from the TCB to the end of the address space. -/
def wrappingBlock : TlsCall := ⟨⟨0xffffffffffffffe0#64,1#64⟩,⟨0,by omega,rfl⟩⟩

/-- Its end wraps to 0, which passes the check, and the block is handed out. -/
theorem wrapping_block_granted :
    Guarded tlsStep SumsBounded TlsRun.initial [wrappingBlock] ∧
      (allocTls Tls.initial wrappingBlock.tlsSize wrappingBlock.tlsAlign false true).result =
        .ok 32#64 ∧
      ¬ Always tlsStep TlsRun.Sound TlsRun.initial [wrappingBlock] := by
  refine ⟨by decide,rfl,?_⟩
  rintro ⟨-,h⟩
  refine not_sound_of_wrap initial_tlsInv (c := wrappingBlock) (by decide) ?_ rfl (h _ rfl)
  unfold SumsFit
  decide

end WinterLily.Loader
