import WinterLily.Base.Memory
import WinterLily.Loader.Tls
import Mathlib

/-! The TLS areas in memory: the `Tcb` at a thread pointer, `load_tls`, `update_tls`, `set_tp` and
`__tls_get_addr`, and what `update_tls` does to an area that is behind the master copy. -/
namespace WinterLily.Loader
open WinterLily.Memory

/-- The kernel's answers to `mprotect(addr, len, PROT_READ | PROT_WRITE)`. -/
abbrev Mprotect := Usize → Usize → Bool

/-- `load_size`, `dyn_size` and `version` of the `Tcb` at `p`; `tls_base` is the word at `p`. -/
def readTcb (m : Mem 64) (p : Usize) : Tcb :=
  ⟨m.word (p+8#64),m.word (p+16#64),m.word (p+24#64)⟩

def writeTcb (m : Mem 64) (p : Usize) (t : Tcb) : Mem 64 :=
  ((m.setWord (p+8#64) t.loadSize).setWord (p+16#64) t.dynSize).setWord (p+24#64) t.version

/-- `load_tls`: the file part of the block, `data`, goes to the master copy. -/
def loadTls (m : Mem 64) (mc tlsModule : Usize) (data : List Byte) : Mem 64 :=
  m.fill (mc+tlsModule) data.length fun i => data.getD i 0

/-- The first half of `update_tls`; `none` is `crash_unrecoverably`. -/
def updateStatic (mprotect : Mprotect) (m : Mem 64) (mc tp : Usize) : Option (Mem 64) :=
  let tcb := readTcb m tp
  let mtcb := readTcb m mc
  if tcb.loadSize < mtcb.loadSize then
    let len := mtcb.loadSize-tcb.loadSize
    let page := pageDown tcb.loadSize
    if mprotect (tp+page) (mtcb.loadSize-page) then
      some ((m.copy (mc+tcb.loadSize) (tp+tcb.loadSize) len.toNat).setWord (tp+8#64) mtcb.loadSize)
    else none
  else some m

/-- The second half: the block of the executable, which ends at the thread pointer. -/
def updateDynamic (mprotect : Mprotect) (m : Mem 64) (mc tp : Usize) : Option (Mem 64) :=
  let tcb := readTcb m tp
  let mtcb := readTcb m mc
  if tcb.dynSize < mtcb.dynSize then
    let len := mtcb.dynSize-tcb.dynSize
    let page := pageUp mtcb.dynSize
    if mprotect (tp-page) (page-tcb.dynSize) then
      some ((m.copy (mc-mtcb.dynSize) (tp-mtcb.dynSize) len.toNat).setWord (tp+16#64) mtcb.dynSize)
    else none
  else some m

/-- `update_tls` on the thread whose FS base is `fs`; `get_tp` reads the word there. -/
def updateTls (mprotect : Mprotect) (m : Mem 64) (mc fs : Usize) : Option (Mem 64) :=
  let tp := m.word fs
  (updateStatic mprotect m mc tp).bind fun m =>
    (updateDynamic mprotect m mc tp).map fun m => m.setWord (tp+24#64) (m.word (mc+24#64))

def setTp (mprotect : Mprotect) (m : Mem 64) (mc ptr : Usize) : Option (Mem 64) :=
  updateTls mprotect (writeTcb (m.setWord ptr ptr) ptr ⟨tcbSize,0#64,0#64⟩) mc ptr

/-- `__tls_get_addr` for a descriptor: the address it returns and the memory it leaves. -/
def tlsGetAddr (mprotect : Mprotect) (m : Mem 64) (mc fs tlsModule offset : Usize) :
    Option (Usize × Mem 64) :=
  if m.word (mc+24#64) = m.word (fs+24#64) then some (tlsModule+offset+m.word fs,m)
  else (updateTls mprotect m mc fs).map fun m => (tlsModule+offset+m.word fs,m)

/-- The `TLS_BLOCK_SIZE` bytes mapped around a thread pointer. -/
def reservation (p : Usize) : Span 64 := ⟨p-(tlsBlockSize >>> 1),tlsBlockSize⟩

/-- An offset within half a reservation on either side. -/
def InArea (j : Usize) : Prop := j.toNat < 2^25 ∨ 2^64-2^25 ≤ j.toNat

/-- The offsets that a `Tcb` with these sizes accounts for. -/
def Covers (load dyn : ℕ) (j : Usize) : Prop :=
  32 ≤ j.toNat ∧ j.toNat < load ∨ 2^64-dyn ≤ j.toNat

instance (load dyn : ℕ) (j : Usize) : Decidable (Covers load dyn j) :=
  inferInstanceAs (Decidable (_ ∨ _))

section Tcb

variable {m : Mem 64} {p : Usize}

lemma mem_reservation (p j : Usize) : p+j ∈ reservation p ↔ InArea j := by
  have hj := j.isLt
  have hsub : p+j-(p-0x2000000#64) = j+0x2000000#64 := by ring
  change (p+j-(p-0x2000000#64)).toNat < 2^26 ↔ _
  rw [hsub,BitVec.toNat_add,BitVec.toNat_ofNat]
  unfold InArea
  omega

/-- Addresses outside the reservation are the offsets outside the area. -/
lemma frame_of_outside {m' : Mem 64} (h : ∀ j, ¬ InArea j → m' (p+j) = m (p+j)) {x : Usize}
    (hx : x ∉ reservation p) : m' x = m x := by
  have hxp : p+(x-p) = x := add_sub_cancel p x
  rw [← hxp] at hx ⊢
  exact h _ fun hc => hx ((mem_reservation p _).mpr hc)

lemma le_of_not_inArea {j : Usize} (hj : ¬ InArea j) : 32 ≤ j.toNat := by
  unfold InArea at hj
  omega

/-- Writes to the `Tcb` stay inside the area. -/
lemma frame_of_beyond {m' : Mem 64} (h : ∀ j, 32 ≤ j.toNat → m' (p+j) = m (p+j)) {x : Usize}
    (hx : x ∉ reservation p) : m' x = m x :=
  frame_of_outside (fun j hj => h j (le_of_not_inArea hj)) hx

/-- A write to one `Tcb` is not seen in another. -/
lemma tcb_of_apart {m' : Mem 64} {q : Usize} (h : ∀ j, 32 ≤ j.toNat → m' (p+j) = m (p+j))
    (hapart : ∀ x ∈ reservation q, x ∉ reservation p) :
    ∀ j : Usize, j.toNat < 32 → m' (q+j) = m (q+j) := fun j hj =>
  frame_of_beyond h (hapart _ ((mem_reservation q j).mpr (.inl (by omega))))

/-- A word written at another offset of the `Tcb` is not seen. -/
lemma word_setWord_ne {k l : Usize} (v : Usize) (hk : k.toNat ≤ 24) (hl : l.toNat ≤ 24)
    (h : k.toNat+8 ≤ l.toNat ∨ l.toNat+8 ≤ k.toNat) :
    (m.setWord (p+k) v).word (p+l) = m.word (p+l) := by
  refine word_congr fun i hi => ?_
  have hi : (l+BitVec.ofNat 64 i).toNat = l.toNat+i := add_ofNat_toNat (by omega)
  rw [BitVec.add_assoc]
  exact fill_add_of_not_mem _ (by omega) (by omega)

lemma word_setWord_base (v : Usize) {k : Usize} (hk : 8 ≤ k.toNat) (hk' : k.toNat ≤ 24) :
    (m.setWord (p+k) v).word p = m.word p := by
  have h := word_setWord_ne (m := m) (p := p) (l := 0#64) v hk' (by decide) (.inr hk)
  rwa [BitVec.add_zero] at h

/-- A write outside the `Tcb` leaves its fields. -/
lemma word_of_agree {m' : Mem 64} {k : Usize} (hk : k.toNat ≤ 24)
    (h : ∀ j, j.toNat < 32 → m' (p+j) = m (p+j)) : m'.word (p+k) = m.word (p+k) := by
  refine word_congr fun i hi => ?_
  rw [BitVec.add_assoc]
  apply h
  rw [add_ofNat_toNat (by omega)]
  omega

lemma readTcb_of_agree {m' : Mem 64} (h : ∀ j, j.toNat < 32 → m' (p+j) = m (p+j)) :
    readTcb m' p = readTcb m p := by
  unfold readTcb
  rw [word_of_agree (by decide) h,word_of_agree (by decide) h,word_of_agree (by decide) h]

lemma base_of_agree {m' : Mem 64} (h : ∀ j, j.toNat < 32 → m' (p+j) = m (p+j)) :
    m'.word p = m.word p := by
  have h := word_of_agree (k := 0#64) (by decide) h
  rwa [BitVec.add_zero] at h

/-- A word of the `Tcb` written leaves what lies beyond it. -/
lemma setWord_beyond {k j : Usize} (v : Usize) (hk : k.toNat ≤ 24) (hj : 32 ≤ j.toNat) :
    m.setWord (p+k) v (p+j) = m (p+j) :=
  fill_add_of_not_mem _ (by omega) (by omega)

lemma readTcb_setLoad (v : Usize) :
    readTcb (m.setWord (p+8#64) v) p = { readTcb m p with loadSize := v } := by
  unfold readTcb
  rw [word_setWord (by decide),word_setWord_ne v (by decide) (by decide) (by decide),
    word_setWord_ne v (by decide) (by decide) (by decide)]

lemma readTcb_setDyn (v : Usize) :
    readTcb (m.setWord (p+16#64) v) p = { readTcb m p with dynSize := v } := by
  unfold readTcb
  rw [word_setWord (by decide),word_setWord_ne v (by decide) (by decide) (by decide),
    word_setWord_ne v (by decide) (by decide) (by decide)]

lemma readTcb_setVersion (v : Usize) :
    readTcb (m.setWord (p+24#64) v) p = { readTcb m p with version := v } := by
  unfold readTcb
  rw [word_setWord (by decide),word_setWord_ne v (by decide) (by decide) (by decide),
    word_setWord_ne v (by decide) (by decide) (by decide)]

lemma readTcb_writeTcb (t : Tcb) : readTcb (writeTcb m p t) p = t := by
  rw [writeTcb,readTcb_setVersion,readTcb_setDyn,readTcb_setLoad]

lemma base_writeTcb (t : Tcb) : (writeTcb m p t).word p = m.word p := by
  rw [writeTcb,word_setWord_base _ (by decide) (by decide),
    word_setWord_base _ (by decide) (by decide),word_setWord_base _ (by decide) (by decide)]

lemma writeTcb_beyond (t : Tcb) {j : Usize} (hj : 32 ≤ j.toNat) :
    writeTcb m p t (p+j) = m (p+j) := by
  rw [writeTcb,setWord_beyond _ (by decide) hj,setWord_beyond _ (by decide) hj,
    setWord_beyond _ (by decide) hj]

end Tcb

/-- A module that has been loaded: its block and the file part of its image. -/
structure TlsModule where
  off : Usize
  tlsSize : Usize
  execTls : Bool
  data : List Byte
  deriving DecidableEq, Repr

/-- Byte `i` of the image: the file part, then zeros. -/
def TlsModule.image (m : TlsModule) (i : ℕ) : Byte := m.data.getD i 0

/-- The offset lies in the block. -/
def TlsModule.Has (m : TlsModule) (j : Usize) : Prop :=
  m.off.toNat ≤ j.toNat ∧ j.toNat < m.off.toNat+m.tlsSize.toNat

/-- How far an area is set up on either side of the thread pointer, and whether the block of the
executable is among what it holds. -/
structure Extent where
  load : ℕ
  dyn : ℕ
  exec : Bool

namespace Extent

def initial : Extent := ⟨32,0,false⟩

def grow (z : Extent) (m : TlsModule) : Extent :=
  if m.execTls then ⟨z.load,(-m.off).toNat,true⟩
  else ⟨m.off.toNat+m.tlsSize.toNat,z.dyn,z.exec⟩

/-- The extent after a list of modules. -/
def after (z : Extent) (l : List TlsModule) : Extent := l.foldl grow z

def Has (z : Extent) (j : Usize) : Prop := Covers z.load z.dyn j

/-- The `Tcb` that records the extent. -/
def tcb (z : Extent) (version : ℕ) : Tcb :=
  ⟨BitVec.ofNat 64 z.load,BitVec.ofNat 64 z.dyn,BitVec.ofNat 64 version⟩

structure Ok (z : Extent) : Prop where
  lower : 32 ≤ z.load
  upper : z.load ≤ 2^25
  below : z.dyn ≤ 2^25
  empty : z.exec = false → z.dyn = 0

structure Le (z y : Extent) : Prop where
  load : z.load ≤ y.load
  dyn : z.dyn ≤ y.dyn

/-- The block of the next module lies beyond the extent and inside the area. -/
def Fits (z : Extent) (m : TlsModule) : Prop :=
  m.data.length ≤ m.tlsSize.toNat ∧
    if m.execTls then z.exec = false ∧ (-m.off).toNat ≤ 2^25 ∧ m.tlsSize.toNat ≤ (-m.off).toNat
    else z.load ≤ m.off.toNat ∧ m.off.toNat+m.tlsSize.toNat ≤ 2^25

/-- Each module of the list fits where the ones before it have left the extent. -/
def Laid : Extent → List TlsModule → Prop
  | _,[] => True
  | z,m::l => z.Fits m ∧ Laid (z.grow m) l

variable {z y : Extent} {m : TlsModule} {l : List TlsModule} {j : Usize}

lemma initial_ok : initial.Ok := ⟨le_refl _,by decide,by decide,fun _ => rfl⟩

lemma Le.refl (z : Extent) : z.Le z := ⟨le_refl _,le_refl _⟩

lemma Le.trans {x : Extent} (h : x.Le y) (h' : y.Le z) : x.Le z :=
  ⟨h.load.trans h'.load,h.dyn.trans h'.dyn⟩

lemma Le.has (h : z.Le y) (hj : z.Has j) : y.Has j := by
  have := h.load
  have := h.dyn
  unfold Has Covers at hj ⊢
  omega

/-- The offsets of a block that ends at the thread pointer. -/
lemma neg_toNat_add {x : Usize} {i : ℕ} (hi : i < (-x).toNat) : 2^64-(-x).toNat = x.toNat := by
  have hx := x.isLt
  rw [BitVec.toNat_neg] at hi ⊢
  by_cases h0 : x.toNat = 0
  · rw [h0] at hi
    simp at hi
  · rw [Nat.mod_eq_of_lt (by omega)]
    omega

section Step

variable (hz : z.Ok) (h : z.Fits m)
include hz h

lemma grow_ok : (z.grow m).Ok := by
  obtain ⟨-,h⟩ := h
  unfold grow
  cases hm : m.execTls with
  | true =>
    rw [hm,if_pos rfl] at h
    rw [if_pos rfl]
    exact ⟨hz.lower,hz.upper,h.2.1,nofun⟩
  | false =>
    rw [hm,if_neg nofun] at h
    rw [if_neg nofun]
    have := hz.lower
    exact ⟨by dsimp only; omega,h.2,hz.below,hz.empty⟩

lemma le_grow : z.Le (z.grow m) := by
  obtain ⟨-,h⟩ := h
  unfold grow
  cases hm : m.execTls with
  | true =>
    rw [hm,if_pos rfl] at h
    rw [if_pos rfl]
    exact ⟨le_refl _,by rw [hz.empty h.1]; exact Nat.zero_le _⟩
  | false =>
    rw [hm,if_neg nofun] at h
    rw [if_neg nofun]
    exact ⟨by dsimp only; omega,le_refl _⟩

/-- The new block is beyond the old extent and within the new one. -/
lemma block_new (hj : m.Has j) : ¬ z.Has j ∧ (z.grow m).Has j := by
  obtain ⟨-,h⟩ := h
  obtain ⟨hlo,hhi⟩ := hj
  have hjlt := j.isLt
  have := hz.lower
  have := hz.upper
  have := hz.below
  unfold grow Has Covers
  cases hm : m.execTls with
  | true =>
    rw [hm,if_pos rfl] at h
    obtain ⟨hexec,hdyn,hsize⟩ := h
    have hoff := neg_toNat_add (x := m.off) (i := 0) (by omega)
    rw [if_pos rfl,hz.empty hexec]
    dsimp only
    omega
  | false =>
    rw [hm,if_neg nofun] at h
    rw [if_neg nofun]
    dsimp only
    omega

end Step

@[simp] lemma after_nil (z : Extent) : z.after [] = z := rfl

@[simp] lemma after_cons (z : Extent) (m : TlsModule) (l : List TlsModule) :
    z.after (m::l) = (z.grow m).after l := rfl

lemma after_append (z : Extent) (l l' : List TlsModule) :
    z.after (l++l') = (z.after l).after l' := List.foldl_append

lemma laid_append {l' : List TlsModule} :
    z.Laid (l++l') ↔ z.Laid l ∧ (z.after l).Laid l' := by
  induction l generalizing z with
  | nil => simp [Laid]
  | cons m l ih => simp [Laid,ih,and_assoc]

lemma Laid.ok (h : z.Laid l) (hz : z.Ok) : (z.after l).Ok := by
  induction l generalizing z with
  | nil => exact hz
  | cons m l ih => exact ih h.2 (grow_ok hz h.1)

lemma Laid.le (h : z.Laid l) (hz : z.Ok) : z.Le (z.after l) := by
  induction l generalizing z with
  | nil => exact Le.refl z
  | cons m l ih => exact (le_grow hz h.1).trans (ih h.2 (grow_ok hz h.1))

/-- Every block of the list is beyond the extent before it and within the one after it. -/
lemma Laid.blocks (h : z.Laid l) (hz : z.Ok) (hm : m ∈ l) (hj : m.Has j) :
    ¬ z.Has j ∧ (z.after l).Has j := by
  induction l generalizing z with
  | nil => cases hm
  | cons n l ih =>
    have hok := grow_ok hz h.1
    cases List.mem_cons.mp hm with
    | inl hn =>
      subst hn
      obtain ⟨hold,hnew⟩ := block_new hz h.1 hj
      exact ⟨hold,(Laid.le h.2 hok).has hnew⟩
    | inr hl =>
      obtain ⟨hold,hnew⟩ := ih h.2 hok hl
      exact ⟨fun hc => hold ((le_grow hz h.1).has hc),hnew⟩

lemma Laid.fits (h : z.Laid l) (hm : m ∈ l) : ∃ y, Fits y m := by
  induction l generalizing z with
  | nil => cases hm
  | cons n l ih =>
    cases List.mem_cons.mp hm with
    | inl hn => exact ⟨z,hn ▸ h.1⟩
    | inr hl => exact ih h.2 hl

end Extent

/-- The offsets in `P` come from the master copy and the others beyond the `Tcb` are kept. -/
structure Filled (m m' : Mem 64) (mc p : Usize) (P : Usize → Prop) : Prop where
  new : ∀ j, P j → m' (p+j) = m (mc+j)
  old : ∀ j, 32 ≤ j.toNat → ¬ P j → m' (p+j) = m (p+j)

/-- What `update_tls` does to an area of extent `z` when the master copy has extent `y`. -/
structure Synced (m m' : Mem 64) (mc p : Usize) (z y : Extent) (v : ℕ) : Prop where
  filled : Filled m m' mc p fun j => y.Has j ∧ ¬ z.Has j
  base : m'.word p = m.word p
  tcb : readTcb m' p = y.tcb v

section Update

variable {m m' : Mem 64} {mc p : Usize} {P Q : Usize → Prop}

lemma Filled.none (hP : ∀ j, ¬ P j) : Filled m m mc p P :=
  ⟨fun j hj => absurd hj (hP j),fun _ _ _ => rfl⟩

/-- Nothing outside the area of the thread changes. -/
lemma Filled.frame (h : Filled m m' mc p P) (hP : ∀ j, P j → InArea j) {x : Usize}
    (hx : x ∉ reservation p) : m' x = m x :=
  frame_of_outside (fun j hj => h.old j (le_of_not_inArea hj) fun hc => hj (hP j hc)) hx

/-- In particular the master copy does not. -/
lemma Filled.master (h : Filled m m' mc p P) (hP : ∀ j, P j → InArea j)
    (hapart : ∀ x, x ∈ reservation mc → x ∉ reservation p) {j : Usize} (hj : InArea j) :
    m' (mc+j) = m (mc+j) := h.frame hP (hapart _ ((mem_reservation mc j).mpr hj))

/-- One half of the update after the other. -/
lemma Filled.comp {m₁ : Mem 64} (h : Filled m m₁ mc p P) (h' : Filled m₁ m' mc p Q)
    (hP : ∀ j, P j → 32 ≤ j.toNat) (hmaster : ∀ j, Q j → m₁ (mc+j) = m (mc+j)) :
    Filled m m' mc p fun j => P j ∨ Q j := by
  refine ⟨fun j hj => ?_,fun j hj hn => ?_⟩
  · by_cases hQ : Q j
    · rw [h'.new j hQ,hmaster j hQ]
    · have hPj := hj.resolve_right hQ
      rw [h'.old j (hP j hPj) hQ,h.new j hPj]
  · rw [h'.old j hj fun hc => hn (.inr hc),h.old j hj fun hc => hn (.inl hc)]

lemma Filled.congr (h : Filled m m' mc p P) (hPQ : ∀ j, P j ↔ Q j) : Filled m m' mc p Q :=
  ⟨fun j hj => h.new j ((hPQ j).mpr hj),fun j hj hn => h.old j hj fun hc => hn ((hPQ j).mp hc)⟩

/-- One half of the update: a copy beyond the `Tcb`, followed by the store of the new size. -/
lemma half_copied {o k : Usize} {n : ℕ} (v : Usize) (ho : 32 ≤ o.toNat) (hn : o.toNat+n ≤ 2^64)
    (hlo : 8 ≤ k.toNat) (hhi : k.toNat ≤ 24) :
    let copied := m.copy (mc+o) (p+o) n
    Filled m (copied.setWord (p+k) v) mc p
        (fun j => o.toNat ≤ j.toNat ∧ j.toNat < o.toNat+n) ∧
      (copied.setWord (p+k) v).word p = m.word p ∧ readTcb copied p = readTcb m p := by
  intro copied
  have htcb : ∀ j : Usize, j.toNat < 32 → copied (p+j) = m (p+j) := fun _ _ =>
    fill_add_of_not_mem _ hn (by omega)
  refine ⟨⟨fun j hj => ?_,fun j hj hnot => ?_⟩,?_,readTcb_of_agree htcb⟩
  · rw [setWord_beyond v hhi (by omega)]
    exact copy_add_of_mem hn hj.1 hj.2
  · rw [setWord_beyond v hhi hj]
    exact fill_add_of_not_mem _ hn hnot
  · rw [word_setWord_base _ hlo hhi,base_of_agree htcb]

variable {z y : Extent} {v v' : ℕ} {mprotect : Mprotect}

lemma ofNat_lt_iff {a b : ℕ} (ha : a ≤ 2^25) (hb : b ≤ 2^25) :
    BitVec.ofNat 64 a < BitVec.ofNat 64 b ↔ a < b := by
  rw [BitVec.lt_def,BitVec.toNat_ofNat,BitVec.toNat_ofNat,Nat.mod_eq_of_lt (by omega),
    Nat.mod_eq_of_lt (by omega)]

lemma ofNat_sub_toNat {a b : ℕ} (hab : a ≤ b) (hb : b ≤ 2^25) :
    (BitVec.ofNat 64 b-BitVec.ofNat 64 a).toNat = b-a := by
  rw [BitVec.toNat_sub_of_le,BitVec.toNat_ofNat,BitVec.toNat_ofNat,Nat.mod_eq_of_lt (by omega),
    Nat.mod_eq_of_lt (by omega)]
  rw [BitVec.le_def,BitVec.toNat_ofNat,BitVec.toNat_ofNat,Nat.mod_eq_of_lt (by omega),
    Nat.mod_eq_of_lt (by omega)]
  exact hab

/-- `update_tls` comes back whenever the kernel grants its requests. -/
lemma updateTls_isSome (h : ∀ addr len, mprotect addr len = true) :
    (updateTls mprotect m mc p).isSome := by
  have hstatic : ∀ (μ : Mem 64) (tp : Usize), ∃ μ', updateStatic mprotect μ mc tp = some μ' := by
    intro μ tp
    simp only [updateStatic,h,if_true]
    split <;> exact ⟨_,rfl⟩
  have hdynamic : ∀ (μ : Mem 64) (tp : Usize), ∃ μ', updateDynamic mprotect μ mc tp = some μ' := by
    intro μ tp
    simp only [updateDynamic,h,if_true]
    split <;> exact ⟨_,rfl⟩
  obtain ⟨μ,hμ⟩ := hstatic m (m.word p)
  obtain ⟨μ',hμ'⟩ := hdynamic μ (m.word p)
  simp [updateTls,hμ,hμ']

/-- An area that is not behind only takes over the version. -/
lemma updateTls_of_not_lt (hbase : m.word p = p)
    (hload : ¬ (readTcb m p).loadSize < (readTcb m mc).loadSize)
    (hdyn : ¬ (readTcb m p).dynSize < (readTcb m mc).dynSize) :
    updateTls mprotect m mc p = some (m.setWord (p+24#64) (m.word (mc+24#64))) := by
  simp [updateTls,hbase,updateStatic,updateDynamic,hload,hdyn]

section Halves

variable (hz : z.Ok) (hy : y.Ok) (hle : z.Le y) (hmaster : readTcb m mc = y.tcb v')
include hz hy hle hmaster

lemma updateStatic_spec (htcb : readTcb m p = z.tcb v)
    (h : updateStatic mprotect m mc p = some m') :
    Filled m m' mc p (fun j => z.load ≤ j.toNat ∧ j.toNat < y.load) ∧ m'.word p = m.word p ∧
      readTcb m' p = { z.tcb v with loadSize := BitVec.ofNat 64 y.load } := by
  have hlo := hz.lower
  have hhi := hz.upper
  have hyhi := hy.upper
  have hload := hle.load
  simp only [updateStatic,htcb,hmaster,Extent.tcb,ofNat_lt_iff hhi hyhi,
    ofNat_sub_toNat hload hyhi] at h
  have ho : (BitVec.ofNat 64 z.load).toNat = z.load := by
    rw [BitVec.toNat_ofNat]
    exact Nat.mod_eq_of_lt (by omega)
  split at h
  · split at h
    · cases h
      obtain ⟨hfill,hbase,hcopy⟩ := half_copied (m := m) (p := p) (k := 8#64)
        (n := y.load-z.load) (BitVec.ofNat 64 y.load) (show 32 ≤ (BitVec.ofNat 64 z.load).toNat by
          omega) (by omega) (by decide) (by decide)
      refine ⟨hfill.congr fun j => ?_,hbase,?_⟩
      · rw [ho]
        omega
      · rw [readTcb_setLoad,hcopy,htcb]
    · cases h
  · cases h
    have heq : z.load = y.load := by omega
    refine ⟨Filled.none fun j => by omega,rfl,?_⟩
    rw [htcb,← heq]
    rfl

lemma updateDynamic_spec (htcb : readTcb m p = { z.tcb v with loadSize := BitVec.ofNat 64 y.load })
    (h : updateDynamic mprotect m mc p = some m') :
    Filled m m' mc p (fun j => 2^64-y.dyn ≤ j.toNat ∧ j.toNat < 2^64-z.dyn) ∧
      m'.word p = m.word p ∧ readTcb m' p = y.tcb v := by
  have hhi := hz.below
  have hyhi := hy.below
  have hdyn := hle.dyn
  simp only [updateDynamic,htcb,hmaster,Extent.tcb,ofNat_lt_iff hhi hyhi,
    ofNat_sub_toNat hdyn hyhi] at h
  split at h
  · split at h
    · cases h
      have ho : (-BitVec.ofNat 64 y.dyn).toNat = 2^64-y.dyn := by
        rw [BitVec.toNat_neg,BitVec.toNat_ofNat,Nat.mod_eq_of_lt (show y.dyn < 2^64 by omega)]
        exact Nat.mod_eq_of_lt (by omega)
      rw [sub_eq_add_neg,sub_eq_add_neg]
      obtain ⟨hfill,hbase,hcopy⟩ := half_copied (m := m) (p := p) (k := 16#64)
        (n := y.dyn-z.dyn) (BitVec.ofNat 64 y.dyn) (show 32 ≤ (-BitVec.ofNat 64 y.dyn).toNat by
          omega) (by omega) (by decide) (by decide)
      refine ⟨hfill.congr fun j => ?_,hbase,?_⟩
      · rw [ho]
        omega
      · rw [readTcb_setDyn,hcopy,htcb]
        rfl
    · cases h
  · cases h
    have heq : z.dyn = y.dyn := by omega
    refine ⟨Filled.none fun j => by omega,rfl,?_⟩
    rw [htcb]
    simp [Extent.tcb,heq]

/-- The whole of `update_tls` on an area apart from the master copy. -/
theorem updateTls_spec (hbase : m.word p = p) (htcb : readTcb m p = z.tcb v)
    (hapart : ∀ x, x ∈ reservation mc → x ∉ reservation p)
    (h : updateTls mprotect m mc p = some m') : Synced m m' mc p z y v' := by
  have hlo := hz.lower
  have hzbelow := hz.below
  have hyhi := hy.upper
  have hybelow := hy.below
  simp only [updateTls,hbase] at h
  obtain ⟨m₁,hstatic,h⟩ := Option.bind_eq_some_iff.mp h
  obtain ⟨m₂,hdynamic,h⟩ := Option.map_eq_some_iff.mp h
  obtain ⟨hfill₁,hbase₁,htcb₁⟩ := updateStatic_spec hz hy hle hmaster htcb hstatic
  have harea₁ : ∀ j, InArea j → m₁ (mc+j) = m (mc+j) := fun j =>
    hfill₁.master (fun i hi => .inl (by omega)) hapart
  have hmaster₁ : readTcb m₁ mc = y.tcb v' := by
    rw [readTcb_of_agree fun j hj => harea₁ j (.inl (by omega)),hmaster]
  obtain ⟨hfill₂,hbase₂,htcb₂⟩ := updateDynamic_spec hz hy hle hmaster₁ htcb₁ hdynamic
  have hfill := hfill₁.comp hfill₂ (fun j hj => by omega) fun j hj => harea₁ j (.inr (by omega))
  have harea₂ : ∀ j, InArea j → m₂ (mc+j) = m (mc+j) := fun j =>
    hfill.master (fun i hi => by unfold InArea; omega) hapart
  have hversion : m₂.word (mc+24#64) = BitVec.ofNat 64 v' := by
    rw [word_of_agree (by decide) fun j hj => harea₂ j (.inl (by omega))]
    change (readTcb m mc).version = _
    rw [hmaster]
    rfl
  subst h
  refine ⟨⟨fun j hj => ?_,fun j hj hn => ?_⟩,?_,?_⟩
  · have hj32 : 32 ≤ j.toNat := by
      have := hj.1
      unfold Extent.Has Covers at this
      omega
    rw [setWord_beyond _ (by decide) hj32]
    refine hfill.new j ?_
    have hjlt := j.isLt
    unfold Extent.Has Covers at hj
    omega
  · rw [setWord_beyond _ (by decide) hj]
    refine hfill.old j hj fun hc => hn ?_
    have hzhi := hz.upper
    unfold Extent.Has Covers
    omega
  · rw [word_setWord_base _ (by decide) (by decide),hbase₂,hbase₁]
  · rw [readTcb_setVersion,htcb₂,hversion]
    rfl

end Halves

end Update

end WinterLily.Loader
