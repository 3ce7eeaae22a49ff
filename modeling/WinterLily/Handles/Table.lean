import WinterLily.Base.Memory
import WinterLily.Base.Transition

/-! The thread-local handle table of `wl-impl/src/handle_base.rs`: 512 slots found by a circular probe
from a hint, a count of the live ones, and guest pointers checked against the array. -/
namespace WinterLily.Handles
open WinterLily.Memory WinterLily.Transition

abbrev Word := BitVec 64

/-- The errors of `lilium_sys::result` that the modelled calls return. -/
inductive LiliumError
  | interrupted
  | permission
  | insufficientMemory
  | invalidOperation
  | invalidMemory
  | unsupportedKernelFunction
  | doesNotExist
  | resourceLimitExhausted
  | invalidHandle
  | invalidString
  | invalidOption
  | unsupportedOperation
  | insufficientLength
  | code (n : ℤ)
  deriving DecidableEq, Repr

structure Handle where
  ty : Word
  blob1 : Word
  blob2 : Word
  fd : Word
  deriving DecidableEq, Repr

/-- `bytemuck::zeroed()`. -/
def Handle.zeroed : Handle := ⟨0#64,0#64,0#64,0#64⟩

def nHandles : ℕ := 512

/-- `size_of::<Handle>()`, which is also its alignment. -/
def handleSize : ℕ := 32

structure Table where
  slots : Fin nHandles → Handle
  startHint : ℕ
  liveHandles : Word

def Table.initial : Table := ⟨fun _ => .zeroed,0,0#64⟩

/-- The index masked into the array. -/
def masked (n : ℕ) : Fin nHandles :=
  ⟨n &&& (nHandles-1),Nat.lt_succ_of_le Nat.and_le_right⟩

/-- The address of a slot in the array at `base`. -/
def slotAddr (base : Word) (i : Fin nHandles) : Word := base+BitVec.ofNat 64 (handleSize*i)

/-- The loop of `insert_handle` over the offsets still to be tried. -/
def insertLoop (base : Word) (handle : Handle) (t : Table) (start : ℕ) :
    List ℕ → Except LiliumError Word × Table
  | [] => (.error .resourceLimitExhausted,t)
  | n::ns =>
    let i := masked (n+start)
    if (t.slots i).ty = 0#64 then
      (.ok (slotAddr base i),
        ⟨Function.update t.slots i handle,i,t.liveHandles+1#64⟩)
    else insertLoop base handle t start ns

def insertHandle (base : Word) (handle : Handle) (t : Table) : Except LiliumError Word × Table :=
  insertLoop base handle t t.startHint (List.range nHandles)

/-- `Handle::try_deref`, giving the slot. The last test reads the type word at the pointer. -/
def tryDeref (base ptr : Word) (t : Table) : Except LiliumError (Fin nHandles) :=
  if base ≤ ptr ∧ ptr < base+BitVec.ofNat 64 (handleSize*nHandles) ∧
      ptr &&& BitVec.ofNat 64 (handleSize-1) = 0#64 then
    let i := masked ((ptr-base).toNat/handleSize)
    if (t.slots i).ty ≠ 0#64 then .ok i else .error .invalidHandle
  else .error .invalidHandle

/-- The descriptors that `Handle::close` passes to `close`. -/
def Handle.closes (h : Handle) (useFd2 : Bool) : List (BitVec 32) :=
  (if useFd2 ∧ h.blob2.slt 0#64 then [-(h.blob2.setWidth 32)] else [])++
    (if h.fd.slt 0#64 then [] else [h.fd.setWidth 32])

/-- `Handle::borrow_fd`. -/
def Handle.borrowFd (h : Handle) : Option (BitVec 32) :=
  if h.fd.slt 0#64 then none else some (h.fd.setWidth 32)

/-- `Handle::check_type`. -/
def Handle.checkType (h : Handle) (ty mask : Word) : Except LiliumError Unit :=
  if h.ty &&& ~~~mask = ty then .ok () else .error .invalidHandle

/-- `Handle::close` on the handle in slot `i`. -/
def closeHandle (t : Table) (i : Fin nHandles) : Table :=
  { t with slots := Function.update t.slots i .zeroed, liveHandles := t.liveHandles-1#64 }

/-- A thread's use of its table: the handles that a `try_deref` has returned, those of them that it
returned since they were last closed, and the descriptors that were closed. -/
structure State where
  table : Table
  obtained : Fin nHandles → Bool
  held : Fin nHandles → Bool
  closed : List (BitVec 32)

def State.initial : State := ⟨.initial,fun _ => false,fun _ => false,[]⟩

inductive Call
  | insert (handle : Handle)
  | tryDeref (ptr : Word)
  | close (i : Fin nHandles) (useFd2 : Bool)
  deriving DecidableEq

/-- One call. Only a handle with a type is inserted, and only one obtained from `try_deref` is closed,
which `close` does without a look at its type. -/
def step (base : Word) (s : State) : Call → Option State
  | .insert handle =>
    if handle.ty = 0#64 then none
    else some { s with table := (insertHandle base handle s.table).2 }
  | .tryDeref ptr =>
    match tryDeref base ptr s.table with
    | .ok i => some { s with
        obtained := Function.update s.obtained i true
        held := Function.update s.held i true }
    | .error _ => some s
  | .close i useFd2 =>
    if s.obtained i then
      some { s with
        table := closeHandle s.table i
        held := Function.update s.held i false
        closed := s.closed++(s.table.slots i).closes useFd2 }
    else none

/-- The handle that is closed was obtained by a `try_deref` since it was last closed. -/
def ClosesHeld (s : State) : Call → Prop
  | .close i _ => s.held i = true
  | _ => True

instance (s : State) (c : Call) : Decidable (ClosesHeld s c) :=
  match c with
  | .insert _ => isTrue trivial
  | .tryDeref _ => isTrue trivial
  | .close i _ => inferInstanceAs (Decidable (s.held i = true))

/-- How many slots are in use. -/
def Table.occupied (t : Table) : ℕ := (Finset.univ.filter fun i => (t.slots i).ty ≠ 0#64).card

/-- The array is aligned and does not wrap. -/
structure Placed (base : Word) : Prop where
  aligned : base.toNat % handleSize = 0
  fits : base.toNat+handleSize*nHandles < 2^64

lemma masked_val (n : ℕ) : (masked n).val = n % nHandles := Nat.and_two_pow_sub_one_eq_mod n 9

/-- The probe gets to every slot, wherever it starts. -/
lemma exists_masked (start : ℕ) (i : Fin nHandles) :
    ∃ n ∈ List.range nHandles, masked (n+start) = i := by
  have hi := i.isLt
  unfold nHandles at *
  refine ⟨(i.val+(512-start % 512)) % 512,?_,?_⟩
  · rw [List.mem_range]
    exact Nat.mod_lt _ (by omega)
  · apply Fin.ext
    rw [masked_val]
    unfold nHandles
    omega

/-- The loop takes the first free slot among those still to be tried. -/
lemma insertLoop_cases (base : Word) (handle : Handle) (t : Table) (start : ℕ) (ns : List ℕ) :
    (∀ n ∈ ns, (t.slots (masked (n+start))).ty ≠ 0#64) ∧
        insertLoop base handle t start ns = (.error .resourceLimitExhausted,t) ∨
      ∃ i, (t.slots i).ty = 0#64 ∧ insertLoop base handle t start ns =
        (.ok (slotAddr base i),⟨Function.update t.slots i handle,i,t.liveHandles+1#64⟩) := by
  induction ns with
  | nil => exact .inl ⟨by simp,rfl⟩
  | cons n ns ih =>
    by_cases hfree : (t.slots (masked (n+start))).ty = 0#64
    · exact .inr ⟨masked (n+start),hfree,by simp only [insertLoop,hfree,if_true]⟩
    · simp only [insertLoop,hfree,if_false]
      refine ih.imp_left fun ⟨hfull,hloop⟩ => ⟨?_,hloop⟩
      intro k hk
      cases List.mem_cons.mp hk with
      | inl heq => rwa [heq]
      | inr hmem => exact hfull k hmem

/-- `insert_handle` refuses on a full table and otherwise takes some free slot. -/
lemma insertHandle_cases (base : Word) (handle : Handle) (t : Table) :
    (∀ i, (t.slots i).ty ≠ 0#64) ∧
        insertHandle base handle t = (.error .resourceLimitExhausted,t) ∨
      ∃ i, (t.slots i).ty = 0#64 ∧ insertHandle base handle t =
        (.ok (slotAddr base i),⟨Function.update t.slots i handle,i,t.liveHandles+1#64⟩) := by
  refine (insertLoop_cases base handle t t.startHint (List.range nHandles)).imp_left
    fun ⟨hfull,hloop⟩ => ⟨fun i => ?_,hloop⟩
  obtain ⟨n,hn,rfl⟩ := exists_masked t.startHint i
  exact hfull n hn

section Pointers

variable {base : Word}

lemma slotAddr_toNat (hb : Placed base) (i : Fin nHandles) :
    (slotAddr base i).toNat = base.toNat+32*i := by
  have hfits : base.toNat+32*512 < 2^64 := hb.fits
  have hi : i.val < 512 := i.isLt
  have haddr : base.toNat+32*i.val < 2^64 := by omega
  exact add_ofNat_toNat haddr

lemma slotAddr_inj (hb : Placed base) {i j : Fin nHandles} (h : slotAddr base i = slotAddr base j) :
    i = j := by
  have hnat := congrArg BitVec.toNat h
  rw [slotAddr_toNat hb,slotAddr_toNat hb] at hnat
  exact Fin.ext (by omega)

/-- The three tests of the pointer: it is the start of some slot. -/
lemma inArray_iff (hb : Placed base) (ptr : Word) :
    (base ≤ ptr ∧ ptr < base+BitVec.ofNat 64 (handleSize*nHandles) ∧
      ptr &&& BitVec.ofNat 64 (handleSize-1) = 0#64) ↔ ∃ i, ptr = slotAddr base i := by
  have hfits : base.toNat+32*512 < 2^64 := hb.fits
  have haligned : base.toNat % 32 = 0 := hb.aligned
  have hend : (base+BitVec.ofNat 64 (handleSize*nHandles)).toNat = base.toNat+32*512 :=
    add_ofNat_toNat hb.fits
  have hmask : ptr &&& BitVec.ofNat 64 (handleSize-1) = 0#64 ↔ ptr.toNat % 32 = 0 := by
    rw [← BitVec.toNat_inj,BitVec.toNat_and]
    change ptr.toNat &&& (2^5-1) = 0 ↔ _
    rw [Nat.and_two_pow_sub_one_eq_mod]
  rw [hmask,BitVec.le_def,BitVec.lt_def,hend]
  constructor
  · intro h
    have hi : (ptr.toNat-base.toNat)/32 < 512 := by omega
    refine ⟨⟨(ptr.toNat-base.toNat)/32,hi⟩,?_⟩
    apply BitVec.eq_of_toNat_eq
    rw [slotAddr_toNat hb]
    dsimp only
    omega
  · rintro ⟨i,rfl⟩
    have hi : i.val < 512 := i.isLt
    rw [slotAddr_toNat hb]
    omega

lemma index_slotAddr (hb : Placed base) (i : Fin nHandles) :
    masked ((slotAddr base i-base).toNat/handleSize) = i := by
  have haddr := slotAddr_toNat hb i
  have hi : i.val < 512 := i.isLt
  apply Fin.ext
  rw [masked_val,BitVec.toNat_sub_of_le (by rw [BitVec.le_def]; omega),haddr]
  change (base.toNat+32*i.val-base.toNat)/32 % 512 = i.val
  omega

/-- A pointer passes exactly when it is the start of a slot in use. -/
lemma tryDeref_ok_iff (hb : Placed base) (ptr : Word) (t : Table) (i : Fin nHandles) :
    tryDeref base ptr t = .ok i ↔ ptr = slotAddr base i ∧ (t.slots i).ty ≠ 0#64 := by
  unfold tryDeref
  by_cases hin : ∃ j, ptr = slotAddr base j
  · rw [if_pos ((inArray_iff hb ptr).mpr hin)]
    obtain ⟨j,rfl⟩ := hin
    simp only [index_slotAddr hb]
    by_cases hty : (t.slots j).ty = 0#64
    · rw [if_neg (not_not_intro hty)]
      refine iff_of_false (by simp) ?_
      rintro ⟨heq,hne⟩
      rw [slotAddr_inj hb heq] at hty
      exact hne hty
    · rw [if_pos hty]
      constructor
      · intro h
        cases h
        exact ⟨rfl,hty⟩
      · rintro ⟨heq,-⟩
        rw [slotAddr_inj hb heq]
  · rw [if_neg fun h => hin ((inArray_iff hb ptr).mp h)]
    exact iff_of_false (by simp) fun h => hin ⟨i,h.1⟩

end Pointers

section Counting

variable {t : Table} {i : Fin nHandles}

/-- One for a handle in use. -/
def Handle.weight (h : Handle) : ℕ := if h.ty ≠ 0#64 then 1 else 0

lemma weight_of_used {h : Handle} (hty : h.ty ≠ 0#64) : h.weight = 1 := if_pos hty

lemma weight_of_free {h : Handle} (hty : h.ty = 0#64) : h.weight = 0 := if_neg (not_not_intro hty)

/-- Replacing the handle in one slot. -/
lemma occupied_update (t : Table) (i : Fin nHandles) (h : Handle) (hint : ℕ) (live : Word) :
    (⟨Function.update t.slots i h,hint,live⟩ : Table).occupied+(t.slots i).weight =
      t.occupied+h.weight := by
  simp only [Table.occupied,Finset.card_filter]
  exact sum_update_add Handle.weight t.slots i h

lemma occupied_le (t : Table) : t.occupied ≤ nHandles := by
  have hcard := Finset.card_filter_le Finset.univ fun i => (t.slots i).ty ≠ 0#64
  simpa [Table.occupied] using hcard

lemma occupied_insert (hfree : (t.slots i).ty = 0#64) {h : Handle} (hty : h.ty ≠ 0#64) (hint : ℕ)
    (live : Word) :
    (⟨Function.update t.slots i h,hint,live⟩ : Table).occupied = t.occupied+1 := by
  have hupd := occupied_update t i h hint live
  rw [weight_of_free hfree,weight_of_used hty] at hupd
  omega

lemma occupied_close (hty : (t.slots i).ty ≠ 0#64) : (closeHandle t i).occupied+1 = t.occupied := by
  have hupd := occupied_update t i .zeroed t.startHint (t.liveHandles-1#64)
  have hzero : Handle.zeroed.weight = 0 := weight_of_free rfl
  rw [hzero,weight_of_used hty] at hupd
  unfold closeHandle
  omega

end Counting

/-- The count is right and a handle that is held is in use. -/
structure Inv (s : State) : Prop where
  live : s.table.liveHandles.toNat = s.table.occupied
  held : ∀ i, s.held i = true → (s.table.slots i).ty ≠ 0#64

lemma initial_inv : Inv .initial := by
  refine ⟨?_,by simp [State.initial]⟩
  simp [State.initial,Table.initial,Table.occupied,Handle.zeroed]

lemma inv_insert {base : Word} {s : State} (h : Inv s) {handle : Handle} (hty : handle.ty ≠ 0#64) :
    Inv { s with table := (insertHandle base handle s.table).2 } := by
  obtain ⟨-,hfull⟩ | ⟨i,hfree,hins⟩ := insertHandle_cases base handle s.table
  · rw [hfull]
    exact h
  · rw [hins]
    have hocc := occupied_insert hfree hty i.val (s.table.liveHandles+1#64)
    have hle := occupied_le ⟨Function.update s.table.slots i handle,i,s.table.liveHandles+1#64⟩
    refine ⟨?_,fun j hj => ?_⟩
    · change (s.table.liveHandles+1#64).toNat = _
      rw [hocc] at hle
      unfold nHandles at hle
      rw [hocc,BitVec.toNat_add,h.live]
      exact Nat.mod_eq_of_lt (by simp; omega)
    · change (Function.update s.table.slots i handle j).ty ≠ 0#64
      by_cases hij : j = i
      · simpa [hij] using hty
      · rw [Function.update_of_ne hij]
        exact h.held j hj

lemma inv_close {s : State} (h : Inv s) {i : Fin nHandles} (hheld : s.held i = true)
    (closed : List (BitVec 32)) :
    Inv ⟨closeHandle s.table i,s.obtained,Function.update s.held i false,closed⟩ := by
  have hocc := occupied_close (h.held i hheld)
  refine ⟨?_,fun j hj => ?_⟩
  · change (s.table.liveHandles-1#64).toNat = (closeHandle s.table i).occupied
    have hlive := h.live
    rw [BitVec.toNat_sub_of_le (by rw [BitVec.le_def]; simp; omega)]
    simp
    omega
  · change (Function.update s.table.slots i .zeroed j).ty ≠ 0#64
    by_cases hij : j = i
    · subst hij
      simp at hj
    · change Function.update s.held i false j = true at hj
      rw [Function.update_of_ne hij] at hj ⊢
      exact h.held j hj

lemma inv_step {base : Word} (hb : Placed base) {s t : State} {c : Call} (h : Inv s)
    (hheld : ClosesHeld s c) (ht : step base s c = some t) : Inv t := by
  cases c with
  | insert handle =>
    simp only [step] at ht
    split at ht
    · cases ht
    · next hty =>
      obtain rfl := Option.some.inj ht
      exact inv_insert h hty
  | tryDeref ptr =>
    simp only [step] at ht
    split at ht
    · next i hi =>
      cases ht
      refine ⟨h.live,fun j hj => ?_⟩
      by_cases hij : j = i
      · rw [hij]
        exact ((tryDeref_ok_iff hb ptr s.table i).mp hi).2
      · change Function.update s.held i true j = true at hj
        rw [Function.update_of_ne hij] at hj
        exact h.held j hj
    · cases ht
      exact h
  | close i useFd2 =>
    simp only [step] at ht
    split at ht
    · cases ht
      exact inv_close h hheld _
    · cases ht

/-- A slot that is free is zeroed, as `close` leaves it. -/
def Table.Tidy (t : Table) : Prop := ∀ i, (t.slots i).ty = 0#64 → t.slots i = .zeroed

lemma tidy_update {t : Table} (h : t.Tidy) (i : Fin nHandles) {handle : Handle}
    (hh : handle.ty = 0#64 → handle = .zeroed) (hint : ℕ) (live : Word) :
    Table.Tidy ⟨Function.update t.slots i handle,hint,live⟩ := by
  intro j hj
  change (Function.update t.slots i handle j).ty = 0#64 at hj
  change Function.update t.slots i handle j = .zeroed
  by_cases hij : j = i
  · rw [hij,Function.update_self] at hj ⊢
    exact hh hj
  · rw [Function.update_of_ne hij] at hj ⊢
    exact h j hj

/-- After any run of calls the free slots are zeroed. -/
theorem reachable_tidy (base : Word) (calls : List Call) (s : State)
    (hs : run (step base) .initial calls = some s) : s.table.Tidy := by
  refine run_invariant (I := fun s => s.table.Tidy) (fun s c t h ht => ?_) (fun _ _ => rfl) hs
  cases c with
  | insert handle =>
    simp only [step] at ht
    split at ht
    · cases ht
    · next hty =>
      obtain rfl := Option.some.inj ht
      obtain ⟨-,hins⟩ | ⟨i,-,hins⟩ := insertHandle_cases base handle s.table
      · rw [hins]
        exact h
      · rw [hins]
        exact tidy_update h i (fun hzero => absurd hzero hty) i _
  | tryDeref ptr =>
    simp only [step] at ht
    split at ht
    · cases ht
      exact h
    · cases ht
      exact h
  | close i useFd2 =>
    simp only [step] at ht
    split at ht
    · cases ht
      exact tidy_update h i (fun _ => rfl) s.table.startHint _
    · cases ht

/-- What a table owes its users, whatever is inserted or dereferenced next. -/
structure TableSound (base : Word) (t : Table) : Prop where
  live : t.liveHandles.toNat = t.occupied
  refuses : ∀ handle, (∃ e, (insertHandle base handle t).1 = .error e) ↔
    ∀ i, (t.slots i).ty ≠ 0#64
  refused : ∀ handle e, (insertHandle base handle t).1 = .error e →
    (insertHandle base handle t).2 = t
  inserted : ∀ handle ptr, (insertHandle base handle t).1 = .ok ptr →
    ∃ i, ptr = slotAddr base i ∧ (t.slots i).ty = 0#64 ∧
      (insertHandle base handle t).2.slots = Function.update t.slots i handle
  fresh : ∀ handle ptr, (insertHandle base handle t).1 = .ok ptr →
    ∀ j, (t.slots j).ty ≠ 0#64 → ptr ≠ slotAddr base j
  deref : ∀ ptr, (∃ i, tryDeref base ptr t = .ok i) ↔
    ∃ i, ptr = slotAddr base i ∧ (t.slots i).ty ≠ 0#64

lemma tableSound_of_inv {base : Word} (hb : Placed base) {s : State} (hinv : Inv s) :
    TableSound base s.table := by
  have hcases := fun handle => insertHandle_cases base handle s.table
  refine ⟨hinv.live,fun handle => ?_,fun handle e he => ?_,fun handle ptr hp => ?_,
    fun handle ptr hp j hj => ?_,fun ptr => ?_⟩
  · obtain ⟨hfull,hins⟩ | ⟨i,hfree,hins⟩ := hcases handle
    · exact iff_of_true ⟨_,by rw [hins]⟩ hfull
    · rw [hins]
      exact iff_of_false (by simp) fun hfull => hfull i hfree
  · obtain ⟨-,hins⟩ | ⟨i,-,hins⟩ := hcases handle
    · rw [hins]
    · rw [hins] at he
      cases he
  · obtain ⟨-,hins⟩ | ⟨i,hfree,hins⟩ := hcases handle
    · rw [hins] at hp
      cases hp
    · rw [hins] at hp ⊢
      cases hp
      exact ⟨i,rfl,hfree,rfl⟩
  · obtain ⟨-,hins⟩ | ⟨i,hfree,hins⟩ := hcases handle
    · rw [hins] at hp
      cases hp
    · rw [hins] at hp
      cases hp
      intro heq
      rw [slotAddr_inj hb heq] at hfree
      exact hj hfree
  · simp only [tryDeref_ok_iff hb]

/-- The table is sound in every state of a run in which no handle is closed again before a `try_deref`
has returned it again. -/
theorem reachable_tableSound (base : Word) (hb : Placed base) (calls : List Call)
    (hheld : Guarded (step base) ClosesHeld .initial calls) :
    Always (step base) (fun s => TableSound base s.table) .initial calls :=
  always_of_guarded (fun _ _ _ h hc ht => inv_step hb h hc ht) (fun _ h => tableSound_of_inv hb h)
    initial_inv hheld

/-- A handle of some type without a descriptor. -/
def plainHandle : Handle := ⟨1#64,0#64,0#64,-1#64⟩

/-- A slot that is given out, closed, given out again and, beside a second handle, closed again. -/
def reuseCalls : List Call :=
  [.insert plainHandle,.tryDeref 0x10000#64,.close (masked 0) false,.insert plainHandle,
    .insert plainHandle,.tryDeref 0x10021#64,.tryDeref 0x10000#64,.close (masked 0) false]

theorem reachable_tableSound_reuse : Placed 0x10000#64 ∧
    ∃ s, run (step 0x10000#64) .initial reuseCalls = some s ∧ TableSound 0x10000#64 s.table := by
  have hb : Placed 0x10000#64 := ⟨by decide,by decide⟩
  have hruns : (run (step 0x10000#64) .initial reuseCalls).isSome = true := by decide +kernel
  have hheld : Guarded (step 0x10000#64) ClosesHeld .initial reuseCalls := by decide +kernel
  obtain ⟨s,hs⟩ := Option.isSome_iff_exists.mp hruns
  exact ⟨hb,s,hs,(reachable_tableSound 0x10000#64 hb _ hheld).last hs⟩

/-- A second `close` takes a handle off the count that is not there. -/
theorem closed_twice_underflows :
    ∃ s, run (step 0x10000#64) .initial
        [.insert plainHandle,.tryDeref 0x10000#64,.close (masked 0) false,
          .close (masked 0) false] = some s ∧
      s.table.liveHandles = -1#64 ∧ (∀ i, (s.table.slots i).ty = 0#64) ∧
      ¬ TableSound 0x10000#64 s.table := by
  have hrun : (run (step 0x10000#64) .initial
      [.insert plainHandle,.tryDeref 0x10000#64,.close (masked 0) false,
        .close (masked 0) false]).map (fun s => (s.table.liveHandles,
          (List.finRange nHandles).all fun i => (s.table.slots i).ty == 0#64)) =
      some (-1#64,true) := by decide +kernel
  obtain ⟨s,hs,hvals⟩ := Option.map_eq_some_iff.mp hrun
  obtain ⟨hlive,hall⟩ := Prod.mk.inj hvals
  have hfree : ∀ i, (s.table.slots i).ty = 0#64 := fun i =>
    beq_iff_eq.mp (List.all_eq_true.mp hall i (List.mem_finRange i))
  refine ⟨s,hs,hlive,hfree,fun hsound => ?_⟩
  have hcount := hsound.live
  have hzero : s.table.occupied = 0 := by simp [Table.occupied,hfree]
  rw [hlive,hzero] at hcount
  exact absurd hcount (by decide)

end WinterLily.Handles
