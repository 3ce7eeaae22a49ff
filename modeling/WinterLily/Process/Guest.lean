import WinterLily.Process.Join

/-! What the handles of a guest thread refer to, over every order of its calls and of the ends of its
children. -/
namespace WinterLily.Process
open WinterLily.Memory WinterLily.Handles WinterLily.Transition

section Descriptors

lemma signExtend_eq {fd : Fd} (hfd : fd.toNat < 2^31) : fd.signExtend 64 = fd.setWidth 64 :=
  BitVec.signExtend_eq_setWidth_of_msb_false (BitVec.msb_eq_false_iff_two_mul_lt.mpr (by omega))

lemma signExtend_slt {fd : Fd} (hfd : fd.toNat < 2^31) : (fd.signExtend 64).slt 0#64 = false := by
  rw [signExtend_eq hfd,BitVec.slt_zero_eq_msb,BitVec.msb_eq_false_iff_two_mul_lt,
    BitVec.toNat_setWidth_of_le (by decide)]
  omega

lemma signExtend_setWidth {fd : Fd} (hfd : fd.toNat < 2^31) :
    (fd.signExtend 64).setWidth 32 = fd := by
  rw [signExtend_eq hfd]
  apply BitVec.eq_of_toNat_eq
  simp

/-- A handle holds the descriptor it was made with. -/
lemma borrowFd_signExtend {h : Handle} {fd : Fd} (hfd : fd.toNat < 2^31)
    (hh : h.fd = fd.signExtend 64) : h.borrowFd = some fd := by
  rw [Handle.borrowFd,hh,signExtend_slt hfd,signExtend_setWidth hfd]
  rfl

lemma closes_of_borrowFd {h : Handle} {fd : Fd} (hh : h.borrowFd = some fd) :
    h.closes false = [fd] := by
  unfold Handle.borrowFd at hh
  split_ifs at hh with hneg
  obtain rfl := Option.some.inj hh
  simp [Handle.closes,hneg]

lemma borrowFd_emptyHandle (proc : Word) : (emptyHandle proc).borrowFd = none :=
  if_pos (show (-1#64).slt 0#64 = true by decide)

end Descriptors

variable {C : Io.Constants} (T : HandleTypes C)

/-- What a slot may hold: nothing, a handle to an open file, one to a child that was not reaped, or
the handle of a `CreateProcess` that could not fork. -/
inductive SlotOk (s : Guest) (h : Handle) : Prop
  | free (hty : h.ty = 0#64)
  | file (hty : h.ty = T.io ∨ h.ty = C.ioFile) {fd : Fd} (hfd : h.borrowFd = some fd)
    (hobj : s.fds fd = some .file)
  | child (hty : h.ty = T.proc) {fd : Fd} {k : ℕ} (hfd : h.borrowFd = some fd)
    (hobj : s.fds fd = some (.child k))
  | abandoned (hh : h = emptyHandle T.proc)

/-- The live handle in slot `i` has the descriptor. -/
def Guest.Holds (s : Guest) (i : Fin nHandles) (fd : Fd) : Prop :=
  (s.table.slots i).ty ≠ 0#64 ∧ (s.table.slots i).borrowFd = some fd

structure GuestInv (s : Guest) : Prop where
  slot : ∀ i, SlotOk T s (s.table.slots i)
  apart : Exclusive s.Holds
  child : ∀ fd k, s.fds fd = some (.child k) → ∃ l, s.children[k]? = some l ∧ l ≠ .reaped
  once : ∀ fd fd' k, s.fds fd = some (.child k) → s.fds fd' = some (.child k) → fd = fd'

variable {T} {s t : Guest}

lemma SlotOk.mono {h : Handle} (hs : SlotOk T s h)
    (hf : ∀ fd, h.ty ≠ 0#64 → h.borrowFd = some fd → t.fds fd = s.fds fd) : SlotOk T t h := by
  cases hs with
  | free hty => exact .free hty
  | file hty hfd hobj =>
    have hne : h.ty ≠ 0#64 := by
      rcases hty with hty | hty <;> rw [hty]
      · exact T.io_ne
      · exact C.ioFile_ne
    exact .file hty hfd ((hf _ hne hfd).trans hobj)
  | child hty hfd hobj => exact .child hty hfd ((hf _ (hty ▸ T.proc_ne) hfd).trans hobj)
  | abandoned hh => exact .abandoned hh

/-- A descriptor that a handle has is open. -/
lemma GuestInv.open_of_holds (h : GuestInv T s) {i : Fin nHandles} {fd : Fd} (hi : s.Holds i fd) :
    s.fds fd ≠ none := by
  obtain ⟨hty,hfd⟩ := hi
  intro hnone
  cases h.slot i with
  | free h0 => exact hty h0
  | file _ hfd' hobj | child _ hfd' hobj =>
    rw [hfd] at hfd'
    obtain rfl := Option.some.inj hfd'
    rw [hnone] at hobj
    cases hobj
  | abandoned hh =>
    rw [hh,borrowFd_emptyHandle] at hfd
    cases hfd

/-- The slots are as before, but that a free one may have been cleared. -/
def SameSlots (s t : Guest) : Prop :=
  ∀ j, t.table.slots j = s.table.slots j ∨ (s.table.slots j).ty = 0#64 ∧ (t.table.slots j).ty = 0#64

lemma SameSlots.holds (h : SameSlots s t) {i : Fin nHandles} {fd : Fd} (hi : t.Holds i fd) :
    s.Holds i fd := by
  rcases h i with heq | ⟨-,h0⟩
  · unfold Guest.Holds at hi ⊢
    rwa [heq] at hi
  · exact absurd h0 hi.1

/-- No child is lost: those there were are there, and one that was not reaped is not. -/
def Outlives (s t : Guest) : Prop :=
  ∀ (k : ℕ) (l : Life), s.children[k]? = some l → l ≠ .reaped →
    ∃ l', t.children[k]? = some l' ∧ l' ≠ .reaped

/-- A step that leaves the handles, and opens at most a file. -/
lemma inv_quiet (h : GuestInv T s) (hslots : SameSlots s t) (hout : Outlives s t)
    (hfds : t.fds = s.fds ∨ ∃ fd, s.fds fd = none ∧ t.fds = Function.update s.fds fd (some .file)) :
    GuestInv T t := by
  have hkeep : ∀ fd, s.fds fd ≠ none → t.fds fd = s.fds fd := by
    rintro fd hfd
    rcases hfds with heq | ⟨fd₀,hnone,heq⟩
    · rw [heq]
    · rw [heq,Function.update_of_ne]
      rintro rfl
      exact hfd hnone
  have hback : ∀ fd k, t.fds fd = some (.child k) → s.fds fd = some (.child k) := by
    rintro fd k hfd
    rcases hfds with heq | ⟨fd₀,hnone,heq⟩
    · rwa [heq] at hfd
    · rw [heq] at hfd
      by_cases hne : fd = fd₀
      · rw [hne,Function.update_self] at hfd
        cases hfd
      · rwa [Function.update_of_ne hne] at hfd
  refine ⟨fun i => ?_,fun i j fd hi hj => h.apart i j fd (hslots.holds hi) (hslots.holds hj),
    fun fd k hfd => ?_,fun fd fd' k h₁ h₂ => h.once fd fd' k (hback fd k h₁) (hback fd' k h₂)⟩
  · rcases hslots i with heq | ⟨-,h0⟩
    · rw [heq]
      exact (h.slot i).mono fun fd hty hfd => hkeep fd (h.open_of_holds ⟨hty,hfd⟩)
    · exact .free h0
  · obtain ⟨l,hl,hne⟩ := h.child fd k (hback fd k hfd)
    exact hout k l hl hne

/-- A handle was put into a free slot. -/
def PutIn (s t : Guest) (i : Fin nHandles) (x : Handle) : Prop :=
  (s.table.slots i).ty = 0#64 ∧ t.table.slots = Function.update s.table.slots i x

lemma PutIn.holds {i j : Fin nHandles} {x : Handle} {fd : Fd} (h : PutIn s t i x) (hj : j ≠ i)
    (hh : t.Holds j fd) : s.Holds j fd := by
  unfold Guest.Holds at hh ⊢
  rwa [h.2,Function.update_of_ne hj] at hh

/-- A step that gives a new descriptor to a new handle. -/
lemma inv_put (h : GuestInv T s) {i : Fin nHandles} {x : Handle} {fd : Fd} {obj : Object}
    (hput : PutIn s t i x) (hnew : s.fds fd = none) (hx : x.borrowFd = some fd)
    (hfds : t.fds = Function.update s.fds fd (some obj)) (hout : Outlives s t)
    (hobj : (x.ty = T.io ∨ x.ty = C.ioFile) ∧ obj = .file ∨
      x.ty = T.proc ∧ obj = .child s.children.length ∧
        ∃ l, t.children[s.children.length]? = some l ∧ l ≠ .reaped) : GuestInv T t := by
  have hself : t.fds fd = some obj := by rw [hfds,Function.update_self]
  have hother : ∀ g, g ≠ fd → t.fds g = s.fds g := fun g hg => by
    rw [hfds,Function.update_of_ne hg]
  have hne : ∀ {j g}, s.Holds j g → g ≠ fd := by
    rintro j g hj rfl
    exact h.open_of_holds hj hnew
  have hlen : ∀ {g k}, s.fds g = some (.child k) → k ≠ s.children.length := by
    rintro g k hg rfl
    obtain ⟨l,hl,-⟩ := h.child g _ hg
    simp at hl
  refine ⟨fun j => ?_,?_,fun g k hg => ?_,fun g g' k h₁ h₂ => ?_⟩
  · rw [hput.2]
    by_cases hj : j = i
    · rw [hj,Function.update_self]
      rcases hobj with ⟨hty,rfl⟩ | ⟨hty,rfl,-⟩
      · exact .file hty hx hself
      · exact .child hty hx hself
    · rw [Function.update_of_ne hj]
      exact (h.slot j).mono fun g hty hg => hother g (hne ⟨hty,hg⟩)
  · refine h.apart.update i (fun j hj g hg => hput.holds hj hg) ?_
    intro g hg j _ hjg
    obtain ⟨-,hborrow⟩ := hg
    rw [hput.2,Function.update_self,hx] at hborrow
    exact hne hjg (Option.some.inj hborrow).symm
  · by_cases hgf : g = fd
    · subst hgf
      rw [hself] at hg
      rcases hobj with ⟨-,rfl⟩ | ⟨-,rfl,hl⟩
      · cases hg
      · cases hg
        exact hl
    · rw [hother g hgf] at hg
      obtain ⟨l,hl,hnr⟩ := h.child g k hg
      exact hout k l hl hnr
  · by_cases hgf : g = fd <;> by_cases hgf' : g' = fd
    · rw [hgf,hgf']
    · subst hgf
      rw [hself] at h₁
      rw [hother g' hgf'] at h₂
      rcases hobj with ⟨-,rfl⟩ | ⟨-,rfl,-⟩
      · cases h₁
      · cases h₁
        exact absurd rfl (hlen h₂)
    · subst hgf'
      rw [hself] at h₂
      rw [hother g hgf] at h₁
      rcases hobj with ⟨-,rfl⟩ | ⟨-,rfl,-⟩
      · cases h₂
      · cases h₂
        exact absurd rfl (hlen h₁)
    · rw [hother g hgf] at h₁
      rw [hother g' hgf'] at h₂
      exact h.once g g' k h₁ h₂

/-- A step that leaves a handle without a descriptor. -/
lemma inv_abandon (h : GuestInv T s) {i : Fin nHandles} (hput : PutIn s t i (emptyHandle T.proc))
    (hfds : t.fds = s.fds) (hout : Outlives s t) : GuestInv T t := by
  refine ⟨fun j => ?_,?_,fun g k hg => ?_,fun g g' k h₁ h₂ => ?_⟩
  · rw [hput.2]
    by_cases hj : j = i
    · rw [hj,Function.update_self]
      exact .abandoned rfl
    · rw [Function.update_of_ne hj]
      exact (h.slot j).mono fun _ _ _ => by rw [hfds]
  · refine h.apart.update i (fun j hj g hg => hput.holds hj hg) ?_
    rintro g ⟨-,hborrow⟩
    rw [hput.2,Function.update_self,borrowFd_emptyHandle] at hborrow
    cases hborrow
  · rw [hfds] at hg
    obtain ⟨l,hl,hnr⟩ := h.child g k hg
    exact hout k l hl hnr
  · rw [hfds] at h₁ h₂
    exact h.once g g' k h₁ h₂

/-- A step that closes a handle to a child and with it the child's only descriptor. -/
lemma inv_close (h : GuestInv T s) {i : Fin nHandles} {fd : Fd} {k : ℕ}
    (hi : s.Holds i fd) (hobj : s.fds fd = some (.child k))
    (hslots : t.table.slots = Function.update s.table.slots i .zeroed)
    (hfds : t.fds = Function.update s.fds fd none)
    (hout : ∀ k' l, k' ≠ k → s.children[k']? = some l → t.children[k']? = some l) :
    GuestInv T t := by
  have hother : ∀ g, g ≠ fd → t.fds g = s.fds g := fun g hg => by
    rw [hfds,Function.update_of_ne hg]
  have hback : ∀ g k', t.fds g = some (.child k') → g ≠ fd ∧ s.fds g = some (.child k') := by
    intro g k' hg
    by_cases hgf : g = fd
    · rw [hfds,hgf,Function.update_self] at hg
      cases hg
    · exact ⟨hgf,(hother g hgf).symm.trans hg⟩
  have hholds : ∀ j g, t.Holds j g → j ≠ i ∧ s.Holds j g := by
    intro j g hj
    unfold Guest.Holds at hj
    rw [hslots] at hj
    by_cases hji : j = i
    · rw [hji,Function.update_self] at hj
      exact absurd rfl hj.1
    · rw [Function.update_of_ne hji] at hj
      exact ⟨hji,hj⟩
  refine ⟨fun j => ?_,fun j j' g hj hj' => h.apart j j' g (hholds j g hj).2 (hholds j' g hj').2,
    fun g k' hg => ?_,fun g g' k' h₁ h₂ => h.once g g' k' (hback g k' h₁).2 (hback g' k' h₂).2⟩
  · rw [hslots]
    by_cases hj : j = i
    · rw [hj,Function.update_self]
      exact .free rfl
    · rw [Function.update_of_ne hj]
      refine (h.slot j).mono fun g hty hg => hother g ?_
      rintro rfl
      exact hj (h.apart j i g ⟨hty,hg⟩ hi)
  · obtain ⟨hgf,hg⟩ := hback g k' hg
    obtain ⟨l,hl,hnr⟩ := h.child g k' hg
    refine ⟨l,hout k' l ?_ hl,hnr⟩
    rintro rfl
    exact hgf (h.once g fd k' hg hobj)

section Calls

variable {base proc : Word} {o : Outcomes} {es : List Who} {e : Exit}

lemma Restored.sameSlots (h : Restored s.table t.table) : SameSlots s t := fun j =>
  (h.1 j).imp_right fun ⟨h0,hz⟩ => ⟨h0,by rw [hz]; rfl⟩

lemma back_of_files {c : Creation} (h : c.fds = s.files) : s.back c = s.fds := by
  funext fd
  simp only [Guest.back,h,Guest.files]
  cases s.fds fd <;> rfl

lemma back_of_pidfd {c : Creation} (hf : o.Fresh s.files)
    (h : c.fds = opens o s.files false false true) :
    s.back c = Function.update s.fds o.pidFd (some (.child s.children.length)) := by
  have hopens : c.fds = Function.update s.files o.pidFd (some .pidfd) := by
    rw [h,← opens_pid hf,opens_none]
  funext fd
  simp only [Guest.back,hopens]
  by_cases hfd : fd = o.pidFd
  · rw [hfd,Function.update_self,Function.update_self]
  · rw [Function.update_of_ne hfd,Function.update_of_ne hfd,Guest.files]
    cases s.fds fd <;> rfl

lemma outlives_append (ls : List Life) (h : t.children = s.children++ls) : Outlives s t := by
  intro k l hl hne
  refine ⟨l,?_,hne⟩
  have hlt : k < s.children.length := (List.getElem?_eq_some_iff.mp hl).1
  rw [h,List.getElem?_append_left hlt,hl]

lemma born_of_forked {c : ChildPhase} (h : c.Forked) : ∃ l, Guest.born e c = [l] ∧ l ≠ .reaped := by
  cases c with
  | absent => exact absurd rfl h.1
  | reaped => exact absurd rfl h.2
  | zombie => exact ⟨_,rfl,by simp⟩
  | _ => exact ⟨_,rfl,by simp⟩

/-- A `CreateProcess` leaves the handles and descriptors, or a handle to a new child, or, when it
could not fork, a handle to nothing. -/
lemma createProcess_cases (hb : Placed base) (hf : o.Fresh s.files) {r : Except LiliumError Word}
    (h : s.createProcess base proc o es e = some (r,t)) :
    Outlives s t ∧
      (SameSlots s t ∧ t.fds = s.fds ∧ (∃ err, r = .error err) ∨
        (∃ i, PutIn s t i (emptyHandle proc)) ∧ t.fds = s.fds ∧ (∃ err, r = .error err) ∨
        ∃ i pid l, r = .ok (slotAddr base i) ∧ PutIn s t i (filledHandle proc pid o.pidFd) ∧
          t.fds = Function.update s.fds o.pidFd (some (.child s.children.length)) ∧
          t.children = s.children++[l] ∧ l ≠ .reaped) := by
  obtain ⟨c,hrun,hret⟩ := Option.bind_eq_some_iff.mp h
  have hinv := run_inv hb hf hrun
  cases hp : c.parent with
  | returned r' =>
    rw [hp] at hret
    obtain ⟨rfl,rfl⟩ := Prod.mk.inj (Option.some.inj hret)
    refine ⟨outlives_append _ rfl,?_⟩
    obtain ⟨-,-,-,hstage⟩ := hinv
    cases hstage with
    | refused he =>
      cases hp
      exact .inl ⟨fun _ => .inl rfl,back_of_files rfl,⟨_,rfl⟩⟩
    | full hfull ht | aborted ha ht | failed he ht hc hd =>
      cases hp
      exact .inl ⟨Restored.sameSlots ht,back_of_files rfl,⟨_,rfl⟩⟩
    | unforked hv he ht =>
      cases hp
      obtain ⟨i,hfree,-,hslots,-⟩ := ht
      exact .inr (.inl ⟨⟨i,hfree,hslots⟩,back_of_files rfl,⟨_,rfl⟩⟩)
    | created hs ht hc hd =>
      cases hp
      obtain ⟨i,hfree,rfl,hslots,-⟩ := ht
      obtain ⟨l,hl,hne⟩ := born_of_forked (e := e) hc
      exact .inr (.inr ⟨i,_,l,rfl,⟨hfree,hslots⟩,back_of_pidfd hf rfl,by
        change s.children++Guest.born e _ = _
        rw [hl],hne⟩)
    | _ => cases hp
  | _ =>
    rw [hp] at hret
    cases hret

/-- The descriptors after an `OpenFile` that got `fd`. -/
lemma opened_fds {fd : Fd} (hnew : s.fds fd = none) :
    (fun g => if Function.update (fun g => (s.fds g).isSome) fd true g = true
      then (s.fds g).or (some .file) else none) = Function.update s.fds fd (some .file) := by
  funext g
  by_cases hg : g = fd
  · subst hg
    rw [Function.update_self,Function.update_self,if_pos rfl,hnew]
    rfl
  · rw [Function.update_of_ne hg,Function.update_of_ne hg]
    cases s.fds g <;> rfl

lemma unopened_fds :
    (fun g => if (s.fds g).isSome = true then (s.fds g).or (some .file) else none) = s.fds := by
  funext g
  cases s.fds g <;> rfl

/-- What an `OpenFile` may do. -/
def OpensAtMost (C : Io.Constants) (s t : Guest) : Prop :=
  t.children = s.children ∧
    (SameSlots s t ∧ (t.fds = s.fds ∨
        ∃ fd, s.fds fd = none ∧ t.fds = Function.update s.fds fd (some .file)) ∨
      ∃ i fd, PutIn s t i (Io.fileHandle C fd) ∧ s.fds fd = none ∧ fd.toNat < 2^31 ∧
        t.fds = Function.update s.fds fd (some .file))

/-- An `OpenFile` leaves the handles, or a handle to a new file. -/
lemma openFile_effect (K : OpenKernel) (a : Io.OpenArgs) :
    OpensAtMost C s (s.openFile C K.toKernel base a).2 := by
  refine ⟨rfl,?_⟩
  unfold Guest.openFile Io.openFile
  cases hd : Io.dirfd C base s.table a.resolutionBase with
  | error e => exact .inl ⟨fun _ => .inl rfl,.inl unopened_fds⟩
  | ok d =>
    cases hc : Io.cstring a.path with
    | error e => exact .inl ⟨fun _ => .inl rfl,.inl unopened_fds⟩
    | ok path =>
      dsimp only
      cases hopen : K.openat (fun fd => (s.fds fd).isSome) d path (Io.oflags C a.opts)
          Io.openMode with
      | error e => exact .inl ⟨fun _ => .inl rfl,.inl unopened_fds⟩
      | ok fd =>
        have hfresh : (s.fds fd).isSome = false := K.fresh hopen
        have hnew : s.fds fd = none := by simpa using hfresh
        obtain ⟨-,hins⟩ | ⟨i,hfree,hins⟩ := insertHandle_cases base (Io.fileHandle C fd) s.table
        · simp only [hins]
          exact .inl ⟨fun _ => .inl rfl,.inr ⟨fd,hnew,opened_fds hnew⟩⟩
        · simp only [hins]
          exact .inr ⟨i,fd,⟨hfree,rfl⟩,hnew,K.nonneg hopen,opened_fds hnew⟩

/-- What a `JoinProcess` that returns a status did. -/
lemma joinProcess_ok {hdl : Word} {j : JoinStatus} (hb : Placed base)
    (h : s.joinProcess proc base hdl = .returns (.ok j) t) :
    ∃ i fd k e, hdl = slotAddr base i ∧ (s.table.slots i).ty = proc ∧ s.Holds i fd ∧
      s.fds fd = some (.child k) ∧ s.children[k]? = some (.zombie e) ∧ j = joinStatus e ∧
      t.table.slots = Function.update s.table.slots i .zeroed ∧
      t.fds = Function.update s.fds fd none ∧ t.children = s.children.set k .reaped := by
  unfold Guest.joinProcess at h
  cases hi : tryDeref base hdl s.table with
  | error e => simp [hi] at h
  | ok i =>
    obtain ⟨hptr,hty⟩ := (tryDeref_ok_iff hb hdl s.table i).mp hi
    simp only [hi] at h
    cases hc : (s.table.slots i).checkType proc 0#64 with
    | error e => simp [hc] at h
    | ok u =>
      simp only [hc] at h
      cases hfd : (s.table.slots i).borrowFd with
      | none => simp [hfd] at h
      | some fd =>
        simp only [hfd] at h
        unfold Guest.waitid at h
        cases hobj : s.fds fd with
        | none => simp [hobj] at h
        | some obj =>
          cases obj with
          | file => simp [hobj] at h
          | socket => simp [hobj] at h
          | child k =>
            simp only [hobj] at h
            cases hl : s.children[k]? with
            | none => simp [hl] at h
            | some l =>
              cases l with
              | running => simp [hl] at h
              | reaped => simp [hl] at h
              | zombie e =>
                simp only [hl] at h
                cases h
                refine ⟨i,fd,k,e,hptr,Io.checkType_ok_iff.mp hc,⟨hty,hfd⟩,hobj,hl,rfl,rfl,?_,rfl⟩
                change ((s.table.slots i).closes false).foldl _ s.fds = _
                rw [closes_of_borrowFd hfd]
                rfl

/-- A `JoinProcess` that returns an error has done nothing. -/
lemma joinProcess_error {hdl : Word} {err : LiliumError}
    (h : s.joinProcess proc base hdl = .returns (.error err) t) : t = s := by
  unfold Guest.joinProcess at h
  split at h
  · cases h; rfl
  · split at h
    · cases h; rfl
    · split at h
      · cases h
      · split at h <;> cases h
        rfl

lemma step_join {hdl : Word} (h : s.step T base (.join hdl) = some t) :
    ∃ r, s.joinProcess T.proc base hdl = .returns r t := by
  cases hj : s.joinProcess T.proc base hdl with
  | waits | panics => simp [Guest.step,hj] at h
  | returns r u =>
    simp only [Guest.step,hj] at h
    exact ⟨r,by rw [Option.some.inj h]⟩

end Calls

section Runs

variable {base : Word}

lemma outlives_of_eq (h : t.children = s.children) : Outlives s t :=
  outlives_append [] (by rw [h,List.append_nil])

lemma outlives_exits {k : ℕ} {e : Exit} (h : t.children = s.children.set k (.zombie e)) :
    Outlives s t := by
  intro k' l hl hne
  rw [h]
  by_cases hk : k = k'
  · subst hk
    have hlt := (List.getElem?_eq_some_iff.mp hl).1
    exact ⟨_,List.getElem?_set_self hlt,by simp⟩
  · exact ⟨l,by rw [List.getElem?_set_ne hk,hl],hne⟩

lemma inv_event (hb : Placed base) (h : GuestInv T s) {ev : GuestEvent}
    (ht : s.step T base ev = some t) : GuestInv T t := by
  cases ev with
  | openFile K a =>
    obtain rfl := Option.some.inj ht
    have heffect : OpensAtMost C s (s.openFile C K.toKernel base a).2 := openFile_effect K a
    obtain ⟨hch,⟨hslots,hfds⟩ | ⟨i,fd,hput,hnew,hlt,hfds⟩⟩ := heffect
    · exact inv_quiet h hslots (outlives_of_eq hch) hfds
    · exact inv_put h hput hnew (borrowFd_signExtend hlt rfl) hfds (outlives_of_eq hch)
        (.inl ⟨.inr rfl,rfl⟩)
  | create o es e =>
    change (if o.Fresh s.files then _ else _) = _ at ht
    split_ifs at ht with hf
    obtain ⟨⟨r,u⟩,hcreate,rfl⟩ := Option.map_eq_some_iff.mp ht
    obtain ⟨hout,⟨hslots,hfds,-⟩ | ⟨⟨i,hput⟩,hfds,-⟩ | ⟨i,pid,l,-,hput,hfds,hch,hl⟩⟩ :=
      createProcess_cases hb hf hcreate
    · exact inv_quiet h hslots hout (.inl hfds)
    · exact inv_abandon h hput hfds hout
    · have hnew : s.fds o.pidFd = none := Option.map_eq_none_iff.mp hf.pid
      refine inv_put h hput hnew (borrowFd_signExtend hf.nonneg rfl) hfds hout
        (.inr ⟨rfl,rfl,l,?_,hl⟩)
      rw [hch]
      simp
  | join hdl =>
    obtain ⟨r,hj⟩ := step_join ht
    cases r with
    | error err =>
      rw [joinProcess_error hj]
      exact h
    | ok j =>
      obtain ⟨i,fd,k,e,-,-,hi,hobj,-,-,hslots,hfds,hch⟩ := joinProcess_ok hb hj
      refine inv_close h hi hobj hslots hfds fun k' l hk hl => ?_
      rw [hch,List.getElem?_set_ne (Ne.symm hk),hl]
  | exits k e =>
    change (if s.children[k]? = some .running then _ else _) = _ at ht
    split_ifs at ht
    obtain rfl := Option.some.inj ht
    exact inv_quiet h (fun _ => .inl rfl) (outlives_exits rfl) (.inl rfl)

/-- A stream that gets a handle. -/
lemma inv_insert (h : GuestInv T s) (fd : Fd) {w ptr : Word} {table : Table}
    (hins : insertHandle base (Guest.stdHandle T.io w) s.table = (.ok ptr,table))
    (hfd : fd.toNat < 2^31) (hw : w = fd.signExtend 64) (hnew : s.fds fd = none) :
    GuestInv T { s with table := table, fds := Function.update s.fds fd (some .file) } := by
  obtain ⟨-,hc⟩ | ⟨i,hfree,hc⟩ := insertHandle_cases base (Guest.stdHandle T.io w) s.table
  · rw [hc] at hins
    cases hins
  · rw [hc] at hins
    cases hins
    exact inv_put h (i := i) ⟨hfree,rfl⟩ hnew (borrowFd_signExtend hfd hw) rfl (outlives_of_eq rfl)
      (.inl ⟨.inl rfl,rfl⟩)

lemma inv_booted (h : s.Booted T base) : GuestInv T s := by
  obtain ⟨⟨hdls,hinit⟩,hch,hfiles,h0,h1,h2⟩ := h
  -- the streams are opened one by one, each as its handle is inserted
  let closed : Fd → Option Object := fun fd =>
    if fd = 0#32 ∨ fd = 1#32 ∨ fd = 2#32 then none else s.fds fd
  have hstart : GuestInv T { s with table := .initial, fds := closed } := by
    have hnot : ∀ fd k, closed fd ≠ some (.child k) := by
      intro fd k
      change (if _ then _ else _) ≠ _
      split_ifs
      · simp
      · rcases hfiles fd with hf | hf <;> simp [hf]
    exact ⟨fun _ => .free rfl,fun i _ _ hi _ => absurd rfl hi.1,fun fd k hc => absurd hc (hnot fd k),
      fun fd _ k hc _ => absurd hc (hnot fd k)⟩
  unfold Guest.getInitHandles at hinit
  cases hin : insertHandle base (Guest.stdHandle T.io 0#64) .initial with
  | mk r₀ t₀ =>
    cases r₀ with
    | error e => simp [hin] at hinit
    | ok p₀ =>
      simp only [hin] at hinit
      cases hout : insertHandle base (Guest.stdHandle T.io 1#64) t₀ with
      | mk r₁ t₁ =>
        cases r₁ with
        | error e => simp [hout] at hinit
        | ok p₁ =>
          simp only [hout] at hinit
          cases herr : insertHandle base (Guest.stdHandle T.io 2#64) t₁ with
          | mk r₂ t₂ =>
            cases r₂ with
            | error e => simp [herr] at hinit
            | ok p₂ =>
              simp only [herr,Option.some.injEq,Prod.mk.injEq] at hinit
              have h₀ := inv_insert hstart 0#32 hin (by decide) (by decide) rfl
              have h₁ := inv_insert h₀ 1#32 hout (by decide) (by decide) rfl
              have h₂ := inv_insert h₁ 2#32 herr (by decide) (by decide) rfl
              have hfds : Function.update (Function.update (Function.update closed 0#32
                  (some .file)) 1#32 (some .file)) 2#32 (some .file) = s.fds := by
                funext fd
                by_cases he : fd = 2#32
                · rw [he,Function.update_self,h2]
                rw [Function.update_of_ne he]
                by_cases ho : fd = 1#32
                · rw [ho,Function.update_self,h1]
                rw [Function.update_of_ne ho]
                by_cases hi : fd = 0#32
                · rw [hi,Function.update_self,h0]
                rw [Function.update_of_ne hi]
                exact if_neg (by simp [he,ho,hi])
              dsimp only at h₂
              rw [hfds,hinit.2] at h₂
              exact h₂

lemma inv_run (hb : Placed base) {evs : List GuestEvent} (hs : s.Booted T base)
    (hrun : run (Guest.step T base) s evs = some t) : GuestInv T t :=
  run_invariant (fun _ _ _ hI ht => inv_event hb hI ht) (inv_booted hs) hrun

lemma tryDeref_error {hdl : Word} {tbl : Table} {err : LiliumError}
    (h : tryDeref base hdl tbl = .error err) : err = .invalidHandle := by
  unfold tryDeref at h
  dsimp only at h
  split_ifs at h
  · exact (Except.error.inj h).symm
  · exact (Except.error.inj h).symm

/-- The handle in slot `i` is that of child `k`. -/
def Guest.Names (proc : Word) (s : Guest) (i : Fin nHandles) (k : ℕ) : Prop :=
  (s.table.slots i).ty = proc ∧ ∃ fd, s.Holds i fd ∧ s.fds fd = some (.child k)

lemma Guest.Names.of_same {proc : Word} {i : Fin nHandles} {k : ℕ} (h : s.Names proc i k)
    (hslot : t.table.slots i = s.table.slots i)
    (hfds : ∀ fd, s.Holds i fd → t.fds fd = s.fds fd) : t.Names proc i k := by
  obtain ⟨hty,fd,hi,hobj⟩ := h
  refine ⟨by rw [hslot,hty],fd,?_,(hfds fd hi).trans hobj⟩
  unfold Guest.Holds at hi ⊢
  rwa [hslot]

/-- A handle is that of its child until it is joined. -/
lemma names_event (hb : Placed base) (h : GuestInv T s) {i : Fin nHandles} {k : ℕ}
    (hn : s.Names T.proc i k) {ev : GuestEvent} (hev : ev ≠ .join (slotAddr base i))
    (ht : s.step T base ev = some t) : t.Names T.proc i k := by
  have hty : (s.table.slots i).ty ≠ 0#64 := by
    rw [hn.1]
    exact T.proc_ne
  have hsame : SameSlots s t → t.table.slots i = s.table.slots i := fun hs =>
    (hs i).resolve_right fun hc => hty hc.1
  have hput : ∀ {j x}, PutIn s t j x → t.table.slots i = s.table.slots i := by
    rintro j x ⟨hfree,hslots⟩
    rw [hslots,Function.update_of_ne]
    rintro rfl
    exact hty hfree
  have hopen : ∀ {g obj}, s.fds g = none → t.fds = Function.update s.fds g (some obj) →
      ∀ fd, s.Holds i fd → t.fds fd = s.fds fd := by
    rintro g obj hg hfds fd hi
    rw [hfds,Function.update_of_ne]
    rintro rfl
    exact h.open_of_holds hi hg
  cases ev with
  | openFile K a =>
    obtain rfl := Option.some.inj ht
    have heffect : OpensAtMost C s (s.openFile C K.toKernel base a).2 := openFile_effect K a
    obtain ⟨-,⟨hslots,hfds | ⟨fd,hnew,hfds⟩⟩ | ⟨j,fd,hp,hnew,-,hfds⟩⟩ := heffect
    · exact hn.of_same (hsame hslots) fun _ _ => by rw [hfds]
    · exact hn.of_same (hsame hslots) (hopen hnew hfds)
    · exact hn.of_same (hput hp) (hopen hnew hfds)
  | create o es e =>
    change (if o.Fresh s.files then _ else _) = _ at ht
    split_ifs at ht with hf
    obtain ⟨⟨r,u⟩,hcreate,rfl⟩ := Option.map_eq_some_iff.mp ht
    obtain ⟨-,⟨hslots,hfds,-⟩ | ⟨⟨j,hp⟩,hfds,-⟩ | ⟨j,pid,l,-,hp,hfds,-,-⟩⟩ :=
      createProcess_cases hb hf hcreate
    · exact hn.of_same (hsame hslots) fun _ _ => by rw [hfds]
    · exact hn.of_same (hput hp) fun _ _ => by rw [hfds]
    · exact hn.of_same (hput hp) (hopen (Option.map_eq_none_iff.mp hf.pid) hfds)
  | join hdl =>
    obtain ⟨r,hj⟩ := step_join ht
    cases r with
    | error err =>
      rw [joinProcess_error hj]
      exact hn
    | ok j =>
      obtain ⟨i',fd',k',e,hptr,-,hi',-,-,-,hslots,hfds,-⟩ := joinProcess_ok hb hj
      have hne : i ≠ i' := by
        rintro rfl
        exact hev (by rw [hptr])
      refine hn.of_same (by rw [hslots,Function.update_of_ne hne]) fun fd hi => ?_
      rw [hfds,Function.update_of_ne]
      rintro rfl
      exact hne (h.apart i i' fd hi hi')
  | exits k' e =>
    change (if s.children[k']? = some .running then _ else _) = _ at ht
    split_ifs at ht
    obtain rfl := Option.some.inj ht
    exact hn.of_same rfl fun _ _ => rfl

lemma names_run (hb : Placed base) {i : Fin nHandles} {k : ℕ} {evs : List GuestEvent}
    (h : GuestInv T s) (hn : s.Names T.proc i k) (hno : .join (slotAddr base i) ∉ evs)
    (hrun : run (Guest.step T base) s evs = some t) : GuestInv T t ∧ t.Names T.proc i k := by
  induction evs generalizing s with
  | nil =>
    cases hrun
    exact ⟨h,hn⟩
  | cons ev evs ih =>
    obtain ⟨u,hu,hrest⟩ := Option.bind_eq_some_iff.mp hrun
    rw [List.mem_cons,not_or] at hno
    exact ih (inv_event hb h hu) (names_event hb h hn (Ne.symm hno.1) hu) hno.2 hrest

/-- `JoinProcess` on the handle of a child that was not reaped waits for it or reaps it. -/
lemma joinProcess_names (hb : Placed base) (h : GuestInv T s) {i : Fin nHandles} {k : ℕ}
    (hn : s.Names T.proc i k) :
    s.children[k]? = some .running ∧ s.joinProcess T.proc base (slotAddr base i) = .waits ∨
      ∃ e t, s.children[k]? = some (.zombie e) ∧
        s.joinProcess T.proc base (slotAddr base i) = .returns (.ok (joinStatus e)) t ∧
        t.table.slots i = .zeroed ∧ t.children = s.children.set k .reaped := by
  obtain ⟨hty,fd,⟨hne,hfd⟩,hobj⟩ := hn
  have hderef : tryDeref base (slotAddr base i) s.table = .ok i :=
    (tryDeref_ok_iff hb _ _ i).mpr ⟨rfl,hne⟩
  have hcheck : (s.table.slots i).checkType T.proc 0#64 = .ok () := Io.checkType_ok_iff.mpr hty
  obtain ⟨l,hl,hnr⟩ := h.child fd k hobj
  cases l with
  | running =>
    refine .inl ⟨hl,?_⟩
    simp only [Guest.joinProcess,hderef,hcheck,hfd,Guest.waitid,hobj,hl]
  | zombie e =>
    refine .inr ⟨e,({ s with children := s.children.set k .reaped }).close i,hl,?_,?_,rfl⟩
    · simp only [Guest.joinProcess,hderef,hcheck,hfd,Guest.waitid,hobj,hl]
    · exact Function.update_self _ _ _
  | reaped => exact absurd rfl hnr

/-- The transfer is refused, or it is what `sys` makes of the open file that the handle has. -/
def Serves (base : Word) (s : Guest) (hdl : Word) (sys : Fd → Except Errno ℕ)
    (r : Guest.Transfer) : Prop :=
  r = .returns (.error .invalidHandle) ∨
    ∃ i fd, hdl = slotAddr base i ∧ s.Holds i fd ∧ s.fds fd = some .file ∧
      r = .returns ((sys fd).mapError linuxErrorToLilium)

/-- What the calls do with a pointer: a transfer is refused or is made on an open file, and
`JoinProcess` is refused, or waits for a child or reaps it, and panics only on the handle of a
`CreateProcess` that could not fork. No two handles have one descriptor. -/
structure HandlesSound (T : HandleTypes C) (base : Word) (s : Guest) : Prop where
  apart : Exclusive s.Holds
  write : ∀ hdl sys, Serves base s hdl sys (s.ioWrite T.io base hdl sys)
  read : ∀ hdl sys, Serves base s hdl sys (s.ioRead T.io base hdl sys)
  join : ∀ hdl, s.joinProcess T.proc base hdl = .returns (.error .invalidHandle) s ∨
    ∃ i, hdl = slotAddr base i ∧
      (s.table.slots i = emptyHandle T.proc ∧ s.joinProcess T.proc base hdl = .panics ∨
        ∃ k, s.Names T.proc i k ∧
          (s.children[k]? = some .running ∧ s.joinProcess T.proc base hdl = .waits ∨
            ∃ e t, s.children[k]? = some (.zombie e) ∧
              s.joinProcess T.proc base hdl = .returns (.ok (joinStatus e)) t ∧
              t.children = s.children.set k .reaped))

lemma checkType_error {h : Handle} {ty mask : Word} {err : LiliumError}
    (hc : h.checkType ty mask = .error err) : err = .invalidHandle := by
  unfold Handle.checkType at hc
  split_ifs at hc
  exact (Except.error.inj hc).symm

lemma ioCall_serves (hb : Placed base) (h : GuestInv T s) (hdl : Word)
    (sys : Fd → Except Errno ℕ) : Serves base s hdl sys (s.ioCall T.io base hdl sys) := by
  cases hi : tryDeref base hdl s.table with
  | error err =>
    obtain rfl := tryDeref_error hi
    exact .inl (by simp only [Guest.ioCall,hi])
  | ok i =>
    obtain ⟨hptr,hne⟩ := (tryDeref_ok_iff hb hdl s.table i).mp hi
    cases hc : (s.table.slots i).checkType T.io 0xF0000000#64 with
    | error err =>
      obtain rfl := checkType_error hc
      exact .inl (by simp only [Guest.ioCall,hi,hc])
    | ok u =>
      have hmasked : (s.table.slots i).ty &&& ~~~0xF0000000#64 = T.io := by
        unfold Handle.checkType at hc
        by_contra hno
        rw [if_neg hno] at hc
        cases hc
      have hproc : (s.table.slots i).ty ≠ T.proc := by
        intro hty
        rw [hty] at hmasked
        exact T.proc_not_io hmasked
      cases h.slot i with
      | free h0 => exact absurd h0 hne
      | file hty hfd hobj =>
        exact .inr ⟨i,_,hptr,⟨hne,hfd⟩,hobj,by simp only [Guest.ioCall,hi,hc,hfd]⟩
      | child hty hfd hobj => exact absurd hty hproc
      | abandoned hh => exact absurd (by rw [hh]; rfl) hproc

lemma joinProcess_sound (hb : Placed base) (h : GuestInv T s) (hdl : Word) :
    s.joinProcess T.proc base hdl = .returns (.error .invalidHandle) s ∨
      ∃ i, hdl = slotAddr base i ∧
        (s.table.slots i = emptyHandle T.proc ∧ s.joinProcess T.proc base hdl = .panics ∨
          ∃ k, s.Names T.proc i k ∧
            (s.children[k]? = some .running ∧ s.joinProcess T.proc base hdl = .waits ∨
              ∃ e t, s.children[k]? = some (.zombie e) ∧
                s.joinProcess T.proc base hdl = .returns (.ok (joinStatus e)) t ∧
                t.children = s.children.set k .reaped)) := by
  cases hi : tryDeref base hdl s.table with
  | error err =>
    obtain rfl := tryDeref_error hi
    exact .inl (by simp only [Guest.joinProcess,hi])
  | ok i =>
    obtain ⟨hptr,hne⟩ := (tryDeref_ok_iff hb hdl s.table i).mp hi
    cases hc : (s.table.slots i).checkType T.proc 0#64 with
    | error err =>
      obtain rfl := checkType_error hc
      exact .inl (by simp only [Guest.joinProcess,hi,hc])
    | ok u =>
      have hproc : (s.table.slots i).ty = T.proc := Io.checkType_ok_iff.mp hc
      refine .inr ⟨i,hptr,?_⟩
      cases h.slot i with
      | free h0 => exact absurd h0 hne
      | file hty hfd hobj =>
        rw [hproc] at hty
        rcases hty with hty | hty
        · exact absurd hty.symm T.io_ne_proc
        · exact absurd hty.symm T.file_ne_proc
      | @child _ fd k hfd hobj =>
        have hn : s.Names T.proc i k := ⟨hproc,fd,⟨hne,hfd⟩,hobj⟩
        subst hptr
        obtain hwait | ⟨e,t,hl,hjoin,-,hch⟩ := joinProcess_names hb h hn
        · exact .inr ⟨k,hn,.inl hwait⟩
        · exact .inr ⟨k,hn,.inr ⟨e,t,hl,hjoin,hch⟩⟩
      | abandoned hh =>
        refine .inl ⟨hh,?_⟩
        have hfd : (s.table.slots i).borrowFd = none := by rw [hh,borrowFd_emptyHandle]
        simp only [Guest.joinProcess,hi,hc,hfd]

section Sample

lemma placed_sample : Placed 0x10000#64 := ⟨by decide,by decide⟩

def sampleTypes : HandleTypes Io.sampleConstants where
  io := 0x10000#64
  proc := 0x20000#64
  io_ne := by decide
  proc_ne := by decide
  io_ne_proc := by decide
  file_ne_proc := by decide
  proc_not_io := by decide

/-- A thread that has just been started, with the three standard streams. -/
def sampleGuest : Guest where
  table := ((Guest.getInitHandles 0x10000#64 sampleTypes.io .initial).map Prod.snd).getD .initial
  fds := fun fd => if fd.toNat < 3 then some .file else none
  mem := fun _ => 0
  children := []

lemma sampleGuest_booted : sampleGuest.Booted sampleTypes 0x10000#64 := by
  refine ⟨?_,rfl,fun fd => ?_,rfl,rfl,rfl⟩
  · have hsome : (Guest.getInitHandles 0x10000#64 sampleTypes.io .initial).isSome = true := by
      decide +kernel
    obtain ⟨⟨hdls,tbl⟩,h⟩ := Option.isSome_iff_exists.mp hsome
    have htbl : sampleGuest.table = tbl := by
      unfold sampleGuest
      simp only [h,Option.map_some,Option.getD_some]
    exact ⟨hdls,htbl ▸ h⟩
  · change (if fd.toNat < 3 then _ else _) = _ ∨ (if fd.toNat < 3 then _ else _) = _
    split_ifs
    · exact .inr rfl
    · exact .inl rfl

def sampleOutcomes : Outcomes where
  valid := none
  fork := .ok 100#32
  pidfdOpen := none
  sendmsg := none
  execve := none
  reports := true
  recvmsg := none
  read := none
  readFd := 3#32
  writeFd := 4#32
  pidFd := 5#32

lemma sampleOutcomes_fresh : sampleOutcomes.Fresh sampleGuest.files :=
  ⟨rfl,rfl,rfl,by decide,by decide,by decide,by decide⟩

/-- The parent receives the child's descriptor and finds the stream closed by the `execve`. -/
def sampleOrder : List Who :=
  [.parent,.parent,.parent,.parent,.child,.child,.parent,.child,.parent,.parent,.parent]

lemma sampleGuest_creates :
    ∃ u, sampleGuest.createProcess 0x10000#64 sampleTypes.proc sampleOutcomes sampleOrder
      (.exited 0) = some (.ok 0x10060#64,u) := by
  have hptr : (sampleGuest.createProcess 0x10000#64 sampleTypes.proc sampleOutcomes sampleOrder
      (.exited 0)).map (fun r => r.1.toOption) = some (some 0x10060#64) := by
    decide +kernel
  obtain ⟨⟨r,u⟩,hcreate,hr⟩ := Option.map_eq_some_iff.mp hptr
  cases r with
  | error err => cases hr
  | ok ptr =>
    obtain rfl := Option.some.inj hr
    exact ⟨u,hcreate⟩

end Sample

end Runs

end WinterLily.Process
