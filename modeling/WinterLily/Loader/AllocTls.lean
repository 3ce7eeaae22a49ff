import WinterLily.Loader.Tls
import Mathlib

/-! `FdLoader::alloc_tls` for both kinds of block and every answer of `mprotect`: where the blocks
lie that it hands out, and what a call that fails leaves behind. -/
namespace WinterLily.Loader
open WinterLily.Transition

/-- A call with the kernel's answer to its `mprotect`. -/
structure TlsRequest extends TlsLayout where
  execTls : Bool
  granted : Bool

def TlsRequest.alloc (r : TlsRequest) (s : Tls) : Allocated :=
  allocTls s r.tlsSize r.tlsAlign r.execTls r.granted

def requestStep (s : Tls) (r : TlsRequest) : Option Tls := some (r.alloc s).state

/-- What `alloc_tls` can do. -/
inductive TlsAnswer (s : Tls) (r : TlsRequest) : Except Error Usize → Tls → Prop
  | full (hexec : r.execTls = false) (hnext : tlsNext s.tlsOff r.tlsSize r.tlsAlign = none) :
      TlsAnswer s r (.error .allocError) s
  | unprotected {next : Usize} (hexec : r.execTls = false) (hgranted : r.granted = false)
      (hnext : tlsNext s.tlsOff r.tlsSize r.tlsAlign = some next) :
      TlsAnswer s r (.error .allocError) { s with tlsOff := next }
  | static {next : Usize} (hexec : r.execTls = false) (hgranted : r.granted = true)
      (hnext : tlsNext s.tlsOff r.tlsSize r.tlsAlign = some next) :
      TlsAnswer s r (.ok (Align.roundUp s.tlsOff r.tlsAlign)) ⟨next,r.record s.tlsOff s.tcb⟩
  | execUnprotected (hexec : r.execTls = true) (hgranted : r.granted = false) :
      TlsAnswer s r (.error .allocError) s
  | exec {tcb : Tcb} (hexec : r.execTls = true) (hgranted : r.granted = true)
      (hload : tcb.loadSize = s.tcb.loadSize) :
      TlsAnswer s r (.ok (Align.roundUp (Align.roundDown (-r.tlsSize) r.tlsAlign) r.tlsAlign))
        { s with tcb := tcb }

lemma TlsRequest.alloc_answer (r : TlsRequest) (s : Tls) :
    TlsAnswer s r (r.alloc s).result (r.alloc s).state := by
  unfold alloc allocTls
  cases hexec : r.execTls with
  | false =>
    cases hnext : tlsNext s.tlsOff r.tlsSize r.tlsAlign with
    | none => exact .full hexec hnext
    | some next =>
      cases hgranted : r.granted with
      | false => exact .unprotected hexec hgranted hnext
      | true => exact .static hexec hgranted hnext
  | true =>
    cases hgranted : r.granted with
    | false => exact .execUnprotected hexec hgranted
    | true => exact .exec hexec hgranted rfl

/-- The end of the block passes the check, be it because it wraps. -/
def TlsLayout.Passes (c : TlsLayout) (v : Usize) : Prop :=
  c.finish v ≤ 2^25 ∨ (2^64 ≤ c.finish v ∧ c.finish v ≤ 2^64+2^25)

section Cursor

variable {c : TlsCall} {v next : Usize}

lemma TlsCall.up_le (c : TlsCall) (hv : v.toNat ≤ 2^25) :
    Align.up v.toNat c.tlsAlign.toNat ≤ 2^63 := by
  obtain ⟨k,hk,ha⟩ := c.pow2
  rw [ha,Align.two_pow_toNat hk]
  by_cases hle : v.toNat ≤ 2^k
  · -- one step of the alignment is enough
    have hdvd := Align.dvd_up v.toNat (2^k)
    have hlt := Align.up_lt_add (n := v.toNat) (Nat.two_pow_pos k)
    obtain ⟨q,hq⟩ := hdvd
    have hq2 : q < 2 := by
      by_contra h
      have := Nat.mul_le_mul_left (2^k) (not_lt.mp h)
      omega
    have hpow : 2^k ≤ 2^63 := Nat.pow_le_pow_right (by omega) (by omega)
    rw [hq]
    interval_cases q <;> omega
  · have hlt := Align.up_lt_add (n := v.toNat) (Nat.two_pow_pos k)
    omega

lemma TlsCall.finish_lt (c : TlsCall) (hv : v.toNat ≤ 2^25) : c.finish v < 2^63+2^64 := by
  have hup := c.up_le hv
  have hsize := c.tlsSize.isLt
  unfold TlsLayout.finish
  omega

lemma TlsCall.next_mod (c : TlsCall) (hv : v.toNat ≤ 2^25) :
    (Align.roundUp v c.tlsAlign+c.tlsSize).toNat = c.finish v % 2^64 := by
  rw [BitVec.toNat_add,c.off_toNat hv]
  rfl

/-- The cursor moves to the end of the block, modulo the word size, if that passes the check. -/
lemma tlsNext_some (hv : v.toNat ≤ 2^25) (h : tlsNext v c.tlsSize c.tlsAlign = some next) :
    c.Passes v ∧ next.toNat = c.finish v % 2^64 := by
  obtain ⟨rfl,hle⟩ := tlsNext_eq h
  have hlt := c.finish_lt hv
  rw [c.next_mod hv] at hle ⊢
  refine ⟨?_,rfl⟩
  unfold TlsLayout.Passes
  omega

lemma tlsNext_none (hv : v.toNat ≤ 2^25) (h : tlsNext v c.tlsSize c.tlsAlign = none) :
    ¬ c.Passes v := by
  have hlt := c.finish_lt hv
  have hgt : 2^25 < (Align.roundUp v c.tlsAlign+c.tlsSize).toNat := by
    by_contra hle
    have hnot : ¬ Align.roundUp v c.tlsAlign+c.tlsSize > tlsBlockSize >>> 1 := hle
    simp [tlsNext,hnot] at h
  rw [c.next_mod hv] at hgt
  unfold TlsLayout.Passes
  omega

end Cursor

/-- The cursor never gets past the end of the area. -/
lemma requestStep_cursor {s t : Tls} {r : TlsRequest} (hs : s.tlsOff.toNat ≤ 2^25)
    (h : requestStep s r = some t) : t.tlsOff.toNat ≤ 2^25 := by
  cases h
  have hanswer := r.alloc_answer s
  generalize (r.alloc s).result = x,(r.alloc s).state = t at hanswer
  cases hanswer with
  | full => exact hs
  | unprotected _ _ hnext | static _ _ hnext => exact (tlsNext_eq hnext).2
  | execUnprotected => exact hs
  | exec => exact hs

lemma reached_cursor {s : Tls} {rs : List TlsRequest}
    (h : run requestStep Tls.initial rs = some s) : s.tlsOff.toNat ≤ 2^25 :=
  run_invariant (I := fun s => s.tlsOff.toNat ≤ 2^25) (fun _ _ _ => requestStep_cursor)
    (by decide) h

section Bounds

/-- The block at a returned offset lies in the area and apart from the TCB. -/
structure InBlock (off tlsSize : Usize) : Prop where
  lower : -((tlsBlockSize >>> 1).toNat : ℤ) ≤ off.toInt
  upper : off.toInt+tlsSize.toNat ≤ (tlsBlockSize >>> 1).toNat
  tcb : ∀ i : ℤ, off.toInt ≤ i → i < off.toInt+tlsSize.toNat → i < 0 ∨ (tcbSize.toNat : ℤ) ≤ i

lemma inBlock_iff {off tlsSize : Usize} : InBlock off tlsSize ↔
    -(2^25) ≤ off.toInt ∧ off.toInt+tlsSize.toNat ≤ 2^25 ∧
      (tlsSize.toNat = 0 ∨ off.toInt+tlsSize.toNat ≤ 0 ∨ 32 ≤ off.toInt) := by
  constructor
  · rintro ⟨hlo,hhi,htcb⟩
    change -(2^25) ≤ off.toInt at hlo
    change _ ≤ (2^25 : ℤ) at hhi
    refine ⟨hlo,hhi,?_⟩
    by_contra hnot
    have h := htcb (max off.toInt 0) (le_max_left _ _) (by omega)
    change _ ∨ (32 : ℤ) ≤ _ at h
    omega
  · rintro ⟨hlo,hhi,htcb⟩
    refine ⟨hlo,hhi,fun i hi hi' => ?_⟩
    change _ ∨ (32 : ℤ) ≤ _
    omega

/-- The call fails in `mprotect`, or its block fits: at the end of the area, the size rounded up
does; after the cursor, its end neither wraps to a value that passes the check nor, if it is
inside, has a start in the TCB. -/
def Contained (s : Tls) (r : TlsRequest) : Prop :=
  r.granted = true →
    if r.execTls then Align.up r.tlsSize.toNat r.tlsAlign.toNat ≤ 2^25
    else ¬ (2^64 ≤ r.finish s.tlsOff ∧ r.finish s.tlsOff ≤ 2^64+2^25) ∧
      (r.finish s.tlsOff ≤ 2^25 →
        r.tlsSize.toNat = 0 ∨ 32 ≤ Align.up s.tlsOff.toNat r.tlsAlign.toNat)

lemma static_inBlock_iff {c : TlsCall} {v : Usize} (hv : v.toNat ≤ 2^25) :
    InBlock (Align.roundUp v c.tlsAlign) c.tlsSize ↔ c.finish v ≤ 2^25 ∧
      (c.tlsSize.toNat = 0 ∨ 32 ≤ Align.up v.toNat c.tlsAlign.toNat) := by
  have hoff := c.off_toNat hv
  have hup := c.up_le hv
  rw [inBlock_iff,BitVec.toInt_eq_toNat_cond,hoff]
  unfold TlsLayout.finish
  split_ifs <;> omega

/-- At the other end the block is rounded away from the TCB, and nothing is checked. -/
lemma exec_inBlock_iff (c : TlsCall) :
    InBlock (Align.roundUp (Align.roundDown (-c.tlsSize) c.tlsAlign) c.tlsAlign) c.tlsSize ↔
      Align.up c.tlsSize.toNat c.tlsAlign.toNat ≤ 2^25 := by
  have hdown := Align.roundDown_toNat c.pow2 (-c.tlsSize)
  have hmul : c.tlsAlign.toNat ∣ (Align.roundDown (-c.tlsSize) c.tlsAlign).toNat := by
    rw [hdown]
    exact Dvd.intro_left _ rfl
  rw [Align.roundUp_of_dvd c.pow2 hmul,inBlock_iff,BitVec.toInt_eq_toNat_cond]
  have halign := c.align_le
  have hsize := c.tlsSize.isLt
  have hle := Align.le_up (n := c.tlsSize.toNat) c.pow2.pos
  have hlt := Align.up_lt_add (n := c.tlsSize.toNat) c.pow2.pos
  by_cases hzero : c.tlsSize.toNat = 0
  · have hup : Align.up c.tlsSize.toNat c.tlsAlign.toNat = 0 := by
      rw [hzero]
      exact Align.up_of_dvd c.pow2.pos (Nat.dvd_zero _)
    have hoff : (Align.roundDown (-c.tlsSize) c.tlsAlign).toNat = 0 := by
      rw [hdown,BitVec.toNat_neg,hzero]
      simp [Align.down]
    rw [hup,hoff,hzero]
    decide
  have hneg : (-c.tlsSize).toNat = 2^64-c.tlsSize.toNat := by
    rw [BitVec.toNat_neg]
    exact Nat.mod_eq_of_lt (by omega)
  have htop : Align.up c.tlsSize.toNat c.tlsAlign.toNat ≤ 2^64 := by
    obtain ⟨q,hq⟩ := c.pow2.dvd
    obtain ⟨t,ht⟩ := Align.dvd_up c.tlsSize.toNat c.tlsAlign.toNat
    rw [ht] at hlt ⊢
    rw [hq]
    apply Nat.mul_le_mul_left
    by_contra hqt
    have := Nat.mul_le_mul_left c.tlsAlign.toNat (not_le.mp hqt)
    rw [Nat.mul_succ,← hq] at this
    omega
  rw [hdown,hneg,Align.down_sub c.pow2.pos c.pow2.dvd htop]
  split_ifs <;> omega

/-- At every cursor that calls can lead to, `alloc_tls` fails or hands out a block in the area and
apart from the TCB exactly if the call is contained. -/
theorem alloc_inBlock_iff {rs : List TlsRequest} {s : Tls}
    (h : run requestStep Tls.initial rs = some s) (r : TlsRequest)
    (hpow2 : Align.IsPow2 r.tlsAlign) :
    ((r.alloc s).result = .error .allocError ∨
        ∃ off, (r.alloc s).result = .ok off ∧ InBlock off r.tlsSize) ↔ Contained s r := by
  have hs := reached_cursor h
  have hanswer := r.alloc_answer s
  let c : TlsCall := ⟨r.toTlsLayout,hpow2⟩
  unfold Contained
  generalize (r.alloc s).result = x,(r.alloc s).state = t at hanswer
  cases hanswer with
  | full hexec hnext =>
    refine iff_of_true (.inl rfl) fun _ => ?_
    have hnot : ¬ r.Passes s.tlsOff := tlsNext_none (c := c) hs hnext
    unfold TlsLayout.Passes at hnot
    rw [if_neg (by simp [hexec])]
    omega
  | unprotected _ hgranted _ | execUnprotected _ hgranted =>
    exact iff_of_true (.inl rfl) (by simp [hgranted])
  | static hexec hgranted hnext =>
    have hpass : r.Passes s.tlsOff := (tlsNext_some (c := c) hs hnext).1
    have hinside : _ ↔ r.finish s.tlsOff ≤ 2^25 ∧
        (r.tlsSize.toNat = 0 ∨ 32 ≤ Align.up s.tlsOff.toNat r.tlsAlign.toNat) :=
      static_inBlock_iff (c := c) hs
    simp only [hexec,hgranted,Bool.false_eq_true,if_false,true_implies,reduceCtorEq,false_or,
      Except.ok.injEq,exists_eq_left']
    rw [hinside]
    unfold TlsLayout.Passes at hpass
    omega
  | exec hexec hgranted _ =>
    simp only [hexec,hgranted,if_true,true_implies,reduceCtorEq,false_or,Except.ok.injEq,
      exists_eq_left']
    exact exec_inBlock_iff c

/-- A block of one page before the TCB. -/
def pageBelow : TlsRequest := ⟨⟨4096#64,4096#64⟩,true,true⟩

theorem alloc_inBlock_iff_pageBelow :
    run requestStep Tls.initial [pageBelow] = some (pageBelow.alloc Tls.initial).state ∧
      (((pageBelow.alloc (pageBelow.alloc Tls.initial).state).result = .error .allocError ∨
          ∃ off, (pageBelow.alloc (pageBelow.alloc Tls.initial).state).result = .ok off ∧
            InBlock off pageBelow.tlsSize) ↔
        Contained (pageBelow.alloc Tls.initial).state pageBelow) := by
  have h : run requestStep Tls.initial [pageBelow] = some (pageBelow.alloc Tls.initial).state := rfl
  exact ⟨h,alloc_inBlock_iff h pageBelow page_pow2⟩

/-- A block of the program twice as large as the half of the area that it is to go to. -/
def hugeBelow : TlsRequest := ⟨⟨0x4000000#64,4096#64⟩,true,true⟩

/-- It is handed out below the area, and a block after the cursor that wraps is handed out too. -/
theorem outside_granted :
    (hugeBelow.alloc Tls.initial).result = .ok 0xfffffffffc000000#64 ∧
      ¬ InBlock 0xfffffffffc000000#64 hugeBelow.tlsSize ∧
      (TlsRequest.alloc ⟨wrappingBlock.toTlsLayout,false,true⟩ Tls.initial).result = .ok 32#64 ∧
      ¬ InBlock 32#64 wrappingBlock.tlsSize := by
  simp only [inBlock_iff]
  decide +kernel

end Bounds

section Failure

/-- The end of the block as the code computes it, for any alignment. -/
def TlsLayout.wordEnd (c : TlsLayout) (v : Usize) : Usize :=
  ((v+(c.tlsAlign-1#64)) &&& ~~~(c.tlsAlign-1#64))+c.tlsSize

/-- `mprotect` fails after the cursor has moved. -/
def MovesCursor (s : Tls) (r : TlsRequest) : Prop :=
  r.execTls = false ∧ r.granted = false ∧ r.wordEnd s.tlsOff ≤ tlsBlockSize >>> 1 ∧
    r.wordEnd s.tlsOff ≠ s.tlsOff

/-- What later modules rely on. -/
def Tls.Agrees (s : Tls) : Prop := s.tcb.loadSize = s.tlsOff

lemma tlsNext_iff {c : TlsLayout} {v next : Usize} :
    tlsNext v c.tlsSize c.tlsAlign = some next ↔
      c.wordEnd v ≤ tlsBlockSize >>> 1 ∧ c.wordEnd v = next := by
  change (if c.wordEnd v > tlsBlockSize >>> 1 then none else some (c.wordEnd v)) = some next ↔ _
  rw [Option.ite_none_left_eq_some,gt_iff_lt,BitVec.not_lt,Option.some.injEq]

/-- A call that fails keeps the state, unless it has moved the cursor. -/
lemma alloc_failed_iff (s : Tls) (r : TlsRequest) :
    ((r.alloc s).result = .error .allocError → (r.alloc s).state = s) ↔ ¬ MovesCursor s r := by
  have hanswer := r.alloc_answer s
  unfold MovesCursor
  generalize (r.alloc s).result = x,(r.alloc s).state = t at hanswer
  cases hanswer with
  | full hexec hnext =>
    refine iff_of_true (fun _ => rfl) fun hmoves => ?_
    rw [tlsNext_iff.mpr ⟨hmoves.2.2.1,rfl⟩] at hnext
    cases hnext
  | unprotected hexec hgranted hnext =>
    obtain ⟨hle,rfl⟩ := tlsNext_iff.mp hnext
    have hstate : ∀ next : Usize, ({ s with tlsOff := next } : Tls) = s ↔ next = s.tlsOff := by
      intro next
      cases s
      simp
    simp only [true_implies,hstate,hexec,hgranted,hle,true_and,ne_eq,not_not]
  | static hexec hgranted hnext => exact iff_of_true (by simp) (by simp [hgranted])
  | execUnprotected hexec => exact iff_of_true (fun _ => rfl) (by simp [hexec])
  | exec hexec => exact iff_of_true (by simp) (by simp [hexec])

/-- The size and the cursor go together in every call but such a one. -/
lemma agrees_step_iff {s : Tls} (hagrees : s.Agrees) (r : TlsRequest) :
    (r.alloc s).state.Agrees ↔ ¬ MovesCursor s r := by
  rw [← alloc_failed_iff]
  have hanswer := r.alloc_answer s
  unfold Tls.Agrees at hagrees ⊢
  generalize (r.alloc s).result = x,(r.alloc s).state = t at hanswer
  cases hanswer with
  | full | execUnprotected => exact iff_of_true hagrees fun _ => rfl
  | unprotected =>
    cases s
    simp only [true_implies,Tls.mk.injEq,and_true]
    exact ⟨fun h => h.symm.trans hagrees,fun h => hagrees.trans h.symm⟩
  | static _ _ hnext =>
    refine iff_of_true ?_ (by simp)
    simp only [TlsLayout.record,hagrees,(tlsNext_eq hnext).1]
    ring
  | exec _ _ hload => exact iff_of_true (hload.trans hagrees) (by simp)

/-- In any state a call that fails keeps the cursor and the master TCB exactly if it does not move the
cursor first; and the size and the cursor agree all along a run exactly if none of its calls does.
The alignments need not be powers of two. -/
theorem failed_alloc_keeps_iff (s : Tls) (r : TlsRequest) (rs : List TlsRequest) :
    (((r.alloc s).result = .error .allocError → (r.alloc s).state = s) ↔ ¬ MovesCursor s r) ∧
      (Always requestStep Tls.Agrees Tls.initial rs ↔
        Guarded requestStep (fun s r => ¬ MovesCursor s r) Tls.initial rs) := by
  refine ⟨alloc_failed_iff s r,?_⟩
  refine always_iff_guarded (I := Tls.Agrees) ?_ (fun _ hs => hs) ?_ rfl
  · intro s r t hs hr ht
    cases ht
    exact (agrees_step_iff hs r).mpr hr
  · intro s r t hs hr ht hagrees
    cases ht
    exact hr ((agrees_step_iff hs r).mp hagrees)

/-- A block after the cursor that `mprotect` refuses. -/
def refusedBlock : TlsRequest := ⟨⟨64#64,32#64⟩,false,false⟩

/-- The cursor stays where the block would have ended, and the recorded size does not. -/
theorem refused_block_moves :
    (refusedBlock.alloc Tls.initial).result = .error .allocError ∧
      (refusedBlock.alloc Tls.initial).state.tlsOff = 96#64 ∧ Tls.initial.tlsOff = 32#64 ∧
      (refusedBlock.alloc Tls.initial).state.tcb.loadSize = 32#64 := by
  decide +kernel

end Failure

end WinterLily.Loader
