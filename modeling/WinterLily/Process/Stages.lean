import WinterLily.Process.Create

/-! What holds at each stage of `CreateProcess`, whatever the system calls return and however parent
and child interleave: the handle table, the descriptors of the caller, and what of the child's
messages is still in flight. -/
namespace WinterLily.Process
open WinterLily.Handles WinterLily.Transition

section Messages

variable (o : Outcomes)

def Outcomes.report (e : Errno) : List Msg := if o.reports then [.errno e.val] else []

/-- All the messages the child ever sends. -/
def Outcomes.script : List Msg :=
  match o.pidfdOpen with
  | some e => o.report e
  | none =>
    match o.sendmsg with
    | some e => o.report e
    | none =>
      .rights::match o.execve with
        | some e => o.report e
        | none => []

/-- The messages it has sent so far. -/
def sent : ChildPhase → List Msg
  | .absent | .pidfdOpen | .sendmsg => []
  | .execve | .running => [.rights]
  | .report _ moved => if moved then [.rights] else []
  | .exiting | .zombie | .reaped => o.script

/-- The child is where the outcomes lead it. -/
def Follows : ChildPhase → Prop
  | .sendmsg => o.pidfdOpen = none
  | .execve => o.pidfdOpen = none ∧ o.sendmsg = none
  | .running => o.pidfdOpen = none ∧ o.sendmsg = none ∧ o.execve = none
  | .report e false => o.pidfdOpen = some e ∨ o.pidfdOpen = none ∧ o.sendmsg = some e
  | .report e true => o.pidfdOpen = none ∧ o.sendmsg = none ∧ o.execve = some e
  | _ => True

end Messages

/-- The child has not yet let go of its end of the socket. -/
def ChildPhase.Busy : ChildPhase → Prop
  | .pidfdOpen | .sendmsg | .execve | .report _ _ => True
  | _ => False

/-- The outcome of `execve` is decided. -/
def ChildPhase.Decided : ChildPhase → Prop
  | .absent | .pidfdOpen | .sendmsg | .execve => False
  | _ => True

/-- There is a child to wait for. -/
def ChildPhase.Forked (c : ChildPhase) : Prop := c ≠ .absent ∧ c ≠ .reaped

/-- How many steps the parent may still take; before the fork this counts those of the child too. -/
def ParentPhase.rank : ParentPhase → ℕ
  | .validate => 19
  | .socketpair => 18
  | .insert => 17
  | .fork _ => 16
  | .recvmsg _ _ => 8
  | .abortClose _ _ | .install _ _ _ => 7
  | .abortWait _ | .dropWrite _ _ => 6
  | .read _ _ => 5
  | .failClose _ _ _ => 4
  | .failWait _ _ => 3
  | .unwind _ => 2
  | .returned _ => 0

def ChildPhase.rank : ChildPhase → ℕ
  | .absent => 0
  | .pidfdOpen => 6
  | .sendmsg => 5
  | .execve => 4
  | .report _ _ => 3
  | .exiting | .running => 2
  | .zombie => 1
  | .reaped => 0

/-- The child's copy of the write end is open while it may still send. -/
structure Writes (s : Creation) : Prop where
  busy : s.child.Busy → s.childWrite = true
  moves : s.childWrite = true → s.child.Busy ∨ s.child = .exiting

section Child

variable {o : Outcomes} {s t : Creation}

/-- A step of the child sends the next messages of its script and touches nothing of the parent. -/
lemma childStep_cases (h : childStep o s = some t) (hf : Follows o s.child) (hw : Writes s) :
    ∃ child msgs w, t = ⟨s.table,s.fds,s.parent,child,s.queue++msgs,w⟩ ∧
      sent o child = sent o s.child++msgs ∧ s.child.Forked ∧ child.Forked ∧
      (s.child.Decided → child.Decided) ∧ Follows o t.child ∧ Writes t := by
  obtain ⟨table,fds,parent,child,queue,w⟩ := s
  unfold childStep at h
  cases child with
  | absent | zombie | reaped => cases h
  | pidfdOpen =>
    have hw : w = true := hw.busy trivial
    cases ho : o.pidfdOpen with
    | none =>
      simp only [ho,Option.some.injEq] at h
      subst h
      exact ⟨.sendmsg,[],w,by simp,by simp [sent],⟨nofun,nofun⟩,⟨nofun,nofun⟩,nofun,ho,
        ⟨fun _ => hw,fun _ => .inl trivial⟩⟩
    | some e =>
      simp only [ho,Option.some.injEq] at h
      subst h
      exact ⟨.report e false,[],w,by simp,by simp [sent],⟨nofun,nofun⟩,⟨nofun,nofun⟩,nofun,.inl ho,
        ⟨fun _ => hw,fun _ => .inl trivial⟩⟩
  | sendmsg =>
    have hw : w = true := hw.busy trivial
    cases ho : o.sendmsg with
    | none =>
      simp only [ho,Option.some.injEq] at h
      subst h
      exact ⟨.execve,[.rights],w,rfl,by simp [sent],⟨nofun,nofun⟩,⟨nofun,nofun⟩,nofun,⟨hf,ho⟩,
        ⟨fun _ => hw,fun _ => .inl trivial⟩⟩
    | some e =>
      simp only [ho,Option.some.injEq] at h
      subst h
      exact ⟨.report e false,[],w,by simp,by simp [sent],⟨nofun,nofun⟩,⟨nofun,nofun⟩,nofun,
        .inr ⟨hf,ho⟩,⟨fun _ => hw,fun _ => .inl trivial⟩⟩
  | execve =>
    have hw : w = true := hw.busy trivial
    cases ho : o.execve with
    | none =>
      simp only [ho,Option.some.injEq] at h
      subst h
      exact ⟨.running,[],false,by simp,by simp [sent],⟨nofun,nofun⟩,⟨nofun,nofun⟩,nofun,
        ⟨hf.1,hf.2,ho⟩,⟨nofun,nofun⟩⟩
    | some e =>
      simp only [ho,Option.some.injEq] at h
      subst h
      exact ⟨.report e true,[],w,by simp,by simp [sent],⟨nofun,nofun⟩,⟨nofun,nofun⟩,nofun,
        ⟨hf.1,hf.2,ho⟩,⟨fun _ => hw,fun _ => .inl trivial⟩⟩
  | report e moved =>
    have hscript : o.script = sent o (.report e moved)++o.report e := by
      cases moved with
      | true =>
        obtain ⟨hpid,hsend,hexec⟩ := hf
        simp [Outcomes.script,hpid,hsend,hexec,sent]
      | false =>
        obtain hpid | ⟨hpid,hsend⟩ := hf
        · simp [Outcomes.script,hpid,sent]
        · simp [Outcomes.script,hpid,hsend,sent]
    cases h
    refine ⟨.exiting,o.report e,w && !moved,?_,hscript,⟨nofun,nofun⟩,⟨nofun,nofun⟩,fun _ => trivial,
      trivial,⟨nofun,fun _ => .inr rfl⟩⟩
    unfold Outcomes.report
    split <;> simp
  | exiting =>
    cases h
    exact ⟨.zombie,[],false,by simp,by simp [sent],⟨nofun,nofun⟩,⟨nofun,nofun⟩,fun _ => trivial,
      trivial,⟨nofun,nofun⟩⟩
  | running =>
    obtain ⟨hpid,hsend,hexec⟩ := hf
    cases h
    refine ⟨.zombie,[],w,by simp,by simp [sent,Outcomes.script,hpid,hsend,hexec],⟨nofun,nofun⟩,
      ⟨nofun,nofun⟩,fun _ => trivial,trivial,⟨nofun,fun hw' => ?_⟩⟩
    obtain hbusy | hexit := hw.moves hw'
    · cases hbusy
    · cases hexit

/-- A child that still has its end of the socket can go on. -/
lemma childStep_isSome (hc : s.child.Busy ∨ s.child = .exiting) : ∃ t, childStep o s = some t := by
  unfold childStep
  cases hchild : s.child with
  | absent | zombie | reaped | running =>
    rw [hchild] at hc
    obtain hbusy | hexit := hc
    · cases hbusy
    · cases hexit
  | pidfdOpen => cases ho : o.pidfdOpen <;> exact ⟨_,rfl⟩
  | sendmsg => cases ho : o.sendmsg <;> exact ⟨_,rfl⟩
  | execve => cases ho : o.execve <;> exact ⟨_,rfl⟩
  | report e moved => exact ⟨_,rfl⟩
  | exiting => exact ⟨_,rfl⟩

end Child

section Descriptors

/-- The kernel gives out descriptors that are not in use. -/
structure Outcomes.Fresh (o : Outcomes) (f₀ : Fd → Option File) : Prop where
  read : f₀ o.readFd = none
  write : f₀ o.writeFd = none
  pid : f₀ o.pidFd = none
  readWrite : o.readFd ≠ o.writeFd
  readPid : o.readFd ≠ o.pidFd
  writePid : o.writeFd ≠ o.pidFd
  nonneg : o.pidFd.toNat < 2^31

/-- The descriptors of before, with those of `CreateProcess` that are open. -/
def opens (o : Outcomes) (f₀ : Fd → Option File) (rd wr pd : Bool) (fd : Fd) : Option File :=
  if fd = o.readFd ∧ rd = true then some .readEnd
  else if fd = o.writeFd ∧ wr = true then some .writeEnd
  else if fd = o.pidFd ∧ pd = true then some .pidfd
  else f₀ fd

variable {o : Outcomes} {f₀ : Fd → Option File} {rd wr pd : Bool}

lemma opens_none : opens o f₀ false false false = f₀ := by
  funext fd
  simp [opens]

lemma opens_sockets (hf : o.Fresh f₀) :
    Function.update (Function.update f₀ o.readFd (some .readEnd)) o.writeFd (some .writeEnd) =
      opens o f₀ true true false := by
  funext fd
  by_cases hw : fd = o.writeFd
  · simp [opens,hw,hf.readWrite.symm]
  · by_cases hr : fd = o.readFd
    · simp [opens,hr,hf.readWrite]
    · simp [opens,hw,hr]

lemma opens_pid (hf : o.Fresh f₀) :
    Function.update (opens o f₀ rd wr false) o.pidFd (some .pidfd) = opens o f₀ rd wr true := by
  funext fd
  by_cases hp : fd = o.pidFd
  · simp [opens,hp,hf.readPid.symm,hf.writePid.symm]
  · simp [opens,hp]

lemma opens_closeRead (hf : o.Fresh f₀) :
    Function.update (opens o f₀ rd wr pd) o.readFd none = opens o f₀ false wr pd := by
  funext fd
  by_cases hr : fd = o.readFd
  · simp [opens,hr,hf.readWrite,hf.readPid,hf.read]
  · simp [opens,hr]

lemma opens_closeWrite (hf : o.Fresh f₀) :
    Function.update (opens o f₀ rd wr pd) o.writeFd none = opens o f₀ rd false pd := by
  funext fd
  by_cases hw : fd = o.writeFd
  · simp [opens,hw,hf.readWrite.symm,hf.writePid,hf.write]
  · simp [opens,hw]

lemma opens_closePid (hf : o.Fresh f₀) :
    Function.update (opens o f₀ rd wr pd) o.pidFd none = opens o f₀ rd wr false := by
  funext fd
  by_cases hp : fd = o.pidFd
  · simp [opens,hp,hf.readPid.symm,hf.writePid.symm,hf.pid]
  · simp [opens,hp]

/-- The write end the parent has is what keeps the stream from ending. -/
lemma opens_write (hf : o.Fresh f₀) :
    (opens o f₀ rd wr pd o.writeFd = some .writeEnd) ↔ wr = true := by
  cases wr with
  | true => simp [opens,hf.readWrite.symm]
  | false => simp [opens,hf.readWrite.symm,hf.writePid,hf.write]

end Descriptors

section Handles

/-- The handle was put into a slot that was free. -/
def Taken (base : Word) (t₀ : Table) (ptr : Word) (h : Handle) (table : Table) : Prop :=
  ∃ i, (t₀.slots i).ty = 0#64 ∧ ptr = slotAddr base i ∧ table.slots = Function.update t₀.slots i h ∧
    table.liveHandles = t₀.liveHandles+1#64

/-- The table is as before, but for the contents of a free slot. -/
def Restored (t₀ table : Table) : Prop :=
  (∀ j, table.slots j = t₀.slots j ∨ (t₀.slots j).ty = 0#64 ∧ table.slots j = .zeroed) ∧
    table.liveHandles = t₀.liveHandles

variable {base ptr procTy : Word} {t₀ table : Table} {h : Handle} {pid : BitVec 32} {fd : Fd}

lemma restored_refl (t₀ : Table) : Restored t₀ t₀ := ⟨fun _ => .inl rfl,rfl⟩

lemma Taken.restored (hb : Placed base) (ht : Taken base t₀ ptr h table) :
    Restored t₀ (closeHandle table (derefUnchecked base ptr)) := by
  obtain ⟨i,hfree,rfl,hslots,hlive⟩ := ht
  rw [show derefUnchecked base (slotAddr base i) = i from index_slotAddr hb i]
  refine ⟨fun j => ?_,?_⟩
  · change Function.update table.slots i .zeroed j = _ ∨ _ ∧ Function.update table.slots i .zeroed j = _
    by_cases hj : j = i
    · rw [hj,Function.update_self]
      exact .inr ⟨hfree,rfl⟩
    · rw [Function.update_of_ne hj,hslots,Function.update_of_ne hj]
      exact .inl rfl
  · change table.liveHandles-1#64 = _
    rw [hlive,BitVec.add_sub_cancel]

lemma Taken.slot (hb : Placed base) (ht : Taken base t₀ ptr h table) :
    table.slots (derefUnchecked base ptr) = h := by
  obtain ⟨i,-,rfl,hslots,-⟩ := ht
  rw [show derefUnchecked base (slotAddr base i) = i from index_slotAddr hb i,hslots,
    Function.update_self]

lemma Taken.fill (hb : Placed base) (ht : Taken base t₀ ptr (emptyHandle procTy) table) :
    Taken base t₀ ptr (filledHandle procTy pid fd) { table with
      slots := Function.update table.slots (derefUnchecked base ptr)
        { table.slots (derefUnchecked base ptr) with
          fd := fd.signExtend 64, blob2 := pid.signExtend 64 } } := by
  rw [ht.slot hb]
  obtain ⟨i,hfree,rfl,hslots,hlive⟩ := ht
  rw [show derefUnchecked base (slotAddr base i) = i from index_slotAddr hb i]
  refine ⟨i,hfree,rfl,?_,hlive⟩
  dsimp only
  rw [hslots,Function.update_idem]
  rfl

lemma closes_emptyHandle : (emptyHandle procTy).closes false = [] := by
  simp [Handle.closes,emptyHandle]

lemma closes_filledHandle (hfd : fd.toNat < 2^31) :
    (filledHandle procTy pid fd).closes false = [fd] := by
  have hmsb : fd.msb = false := BitVec.msb_eq_false_iff_two_mul_lt.mpr (by omega)
  have hext : fd.signExtend 64 = fd.setWidth 64 := BitVec.signExtend_eq_setWidth_of_msb_false hmsb
  have hslt : (fd.setWidth 64).slt 0#64 = false := by
    rw [BitVec.slt_zero_eq_msb,BitVec.msb_eq_false_iff_two_mul_lt,BitVec.toNat_setWidth_of_le]
    · omega
    · decide
  have hback : (fd.setWidth 64).setWidth 32 = fd := by
    apply BitVec.eq_of_toNat_eq
    simp
  simp [Handle.closes,filledHandle,hext,hslt,hback]

/-- Closing the handle closes the descriptor it holds and frees its slot. -/
lemma Taken.closeHandle {s : Creation} (hb : Placed base) (ht : Taken base t₀ ptr h s.table) :
    s.closeHandle base ptr = { s with
      table := Handles.closeHandle s.table (derefUnchecked base ptr)
      fds := (h.closes false).foldl (fun f fd => Function.update f fd none) s.fds } := by
  simp only [Creation.closeHandle,ht.slot hb]

end Handles

section Stages

/-- No descriptor of the child arrives. -/
def Outcomes.Aborts (o : Outcomes) : Prop :=
  o.recvmsg ≠ none ∨ o.pidfdOpen ≠ none ∨ o.sendmsg ≠ none

/-- The descriptor of the child arrives and then its error number. -/
structure Outcomes.Fails (o : Outcomes) (e : Errno) : Prop where
  pidfdOpen : o.pidfdOpen = none
  sendmsg : o.sendmsg = none
  execve : o.execve = some e
  reports : o.reports = true
  recvmsg : o.recvmsg = none
  read : o.read = none

/-- The stream ends after the descriptor of the child, or is not read. -/
def Outcomes.Succeeds (o : Outcomes) : Prop :=
  o.read ≠ none ∨ o.execve = none ∨ o.reports = false

/-- The call gets as far as forking. -/
def Entered (o : Outcomes) (t₀ : Table) : Prop := o.valid = none ∧ ∃ i, (t₀.slots i).ty = 0#64

variable (base procTy : Word) (o : Outcomes) (t₀ : Table) (f₀ : Fd → Option File)

/-- The states of a call, by how far the parent is. -/
inductive Stage : Creation → Prop
  | validate : Stage ⟨t₀,f₀,.validate,.absent,[],false⟩
  | socketpair (hv : o.valid = none) : Stage ⟨t₀,f₀,.socketpair,.absent,[],false⟩
  | insert (hv : o.valid = none) :
    Stage ⟨t₀,opens o f₀ true true false,.insert,.absent,[],false⟩
  | fork {table ptr} (hv : o.valid = none) (ht : Taken base t₀ ptr (emptyHandle procTy) table) :
    Stage ⟨table,opens o f₀ true true false,.fork ptr,.absent,[],false⟩
  | recvmsg {table ptr pid child w} (ht : Taken base t₀ ptr (emptyHandle procTy) table)
    (hc : child.Forked) :
    Stage ⟨table,opens o f₀ true true false,.recvmsg ptr pid,child,sent o child,w⟩
  | abortClose {table ptr e child queue w} (ha : o.Aborts)
    (ht : Taken base t₀ ptr (emptyHandle procTy) table) (hc : child.Forked) :
    Stage ⟨table,opens o f₀ true true false,.abortClose ptr e,child,queue,w⟩
  | abortWait {table e child queue w} (ha : o.Aborts) (ht : Restored t₀ table) (hc : child.Forked) :
    Stage ⟨table,opens o f₀ true true false,.abortWait e,child,queue,w⟩
  | install {table ptr pid child queue w} (hr : o.recvmsg = none)
    (ht : Taken base t₀ ptr (emptyHandle procTy) table) (hc : child.Forked)
    (hq : .rights::queue = sent o child) :
    Stage ⟨table,opens o f₀ true true true,.install ptr pid o.pidFd,child,queue,w⟩
  | dropWrite {table ptr pid child queue w} (hr : o.recvmsg = none)
    (ht : Taken base t₀ ptr (filledHandle procTy pid o.pidFd) table) (hc : child.Forked)
    (hq : .rights::queue = sent o child) :
    Stage ⟨table,opens o f₀ true true true,.dropWrite ptr o.pidFd,child,queue,w⟩
  | read {table ptr pid child queue w} (hr : o.recvmsg = none)
    (ht : Taken base t₀ ptr (filledHandle procTy pid o.pidFd) table) (hc : child.Forked)
    (hq : .rights::queue = sent o child) :
    Stage ⟨table,opens o f₀ true false true,.read ptr o.pidFd,child,queue,w⟩
  | failClose {table ptr pid child queue w e} (he : o.Fails e)
    (ht : Taken base t₀ ptr (filledHandle procTy pid o.pidFd) table) (hc : child.Forked)
    (hd : child.Decided) :
    Stage ⟨table,opens o f₀ false false true,.failClose ptr o.pidFd e.val,child,queue,w⟩
  | failWait {table child queue w e} (he : o.Fails e) (ht : Restored t₀ table) (hc : child.Forked)
    (hd : child.Decided) : Stage ⟨table,f₀,.failWait o.pidFd e.val,child,queue,w⟩
  | unwindFull {table e queue w} (hfull : ∀ i, (t₀.slots i).ty ≠ 0#64) (ht : Restored t₀ table) :
    Stage ⟨table,opens o f₀ true true false,.unwind (.error e),.absent,queue,w⟩
  | unwindFork {table ptr e queue w} (hv : o.valid = none) (he : o.fork = .error e)
    (ht : Taken base t₀ ptr (emptyHandle procTy) table) :
    Stage ⟨table,opens o f₀ true true false,.unwind (.error (linuxErrorToLilium e)),.absent,queue,w⟩
  | unwindAbort {table e queue w} (ha : o.Aborts) (ht : Restored t₀ table) :
    Stage ⟨table,opens o f₀ true true false,.unwind (.error e),.reaped,queue,w⟩
  | refused {e queue w} (he : o.valid = some e) :
    Stage ⟨t₀,f₀,.returned (.error e),.absent,queue,w⟩
  | full {table e queue w} (hfull : ∀ i, (t₀.slots i).ty ≠ 0#64) (ht : Restored t₀ table) :
    Stage ⟨table,f₀,.returned (.error e),.absent,queue,w⟩
  | unforked {table ptr e queue w} (hv : o.valid = none) (he : o.fork = .error e)
    (ht : Taken base t₀ ptr (emptyHandle procTy) table) :
    Stage ⟨table,f₀,.returned (.error (linuxErrorToLilium e)),.absent,queue,w⟩
  | aborted {table e queue w} (ha : o.Aborts) (ht : Restored t₀ table) :
    Stage ⟨table,f₀,.returned (.error e),.reaped,queue,w⟩
  | failed {table child queue w e} (he : o.Fails e) (ht : Restored t₀ table) (hc : child.Forked)
    (hd : child.Decided) :
    Stage ⟨table,f₀,.returned (.error (linuxErrorToLilium e)),child,queue,w⟩
  | created {table ptr pid child queue w} (hs : o.Succeeds)
    (ht : Taken base t₀ ptr (filledHandle procTy pid o.pidFd) table) (hc : child.Forked)
    (hd : o.read = none → child.Decided) :
    Stage ⟨table,opens o f₀ false false true,.returned (.ok ptr),child,queue,w⟩

structure Inv (s : Creation) : Prop where
  entered : s.child ≠ .absent → Entered o t₀
  follows : Follows o s.child
  writes : Writes s
  stage : Stage base procTy o t₀ f₀ s

lemma initial_inv : Inv base procTy o t₀ f₀ (.initial t₀ f₀) :=
  ⟨fun hc => absurd rfl hc,trivial,⟨nofun,nofun⟩,.validate⟩

variable {base procTy o t₀ f₀} {s t : Creation}

/-- A step of the child does not move the parent to another stage. -/
lemma inv_childStep (h : Inv base procTy o t₀ f₀ s) (hstep : childStep o s = some t) :
    Inv base procTy o t₀ f₀ t := by
  obtain ⟨child,msgs,w,rfl,hsent,hold,hnew,hdec,hfol,hwr⟩ :=
    childStep_cases hstep h.follows h.writes
  refine ⟨fun _ => h.entered hold.1,hfol,hwr,?_⟩
  have hstage := h.stage
  have happ : ∀ queue, .rights::queue = sent o s.child → .rights::(queue++msgs) = sent o child := by
    intro queue hq
    rw [hsent,← hq]
    rfl
  cases hstage with
  | validate | socketpair | insert | fork | unwindFull | unwindFork | refused | full | unforked =>
    exact absurd rfl hold.1
  | unwindAbort | aborted => exact absurd rfl hold.2
  | recvmsg ht hc =>
    rw [← hsent]
    exact .recvmsg ht hnew
  | abortClose ha ht hc => exact .abortClose ha ht hnew
  | abortWait ha ht hc => exact .abortWait ha ht hnew
  | install hr ht hc hq => exact .install hr ht hnew (happ _ hq)
  | dropWrite hr ht hc hq => exact .dropWrite hr ht hnew (happ _ hq)
  | read hr ht hc hq => exact .read hr ht hnew (happ _ hq)
  | failClose he ht hc hd => exact .failClose he ht hnew (hdec hd)
  | failWait he ht hc hd => exact .failWait he ht hnew (hdec hd)
  | failed he ht hc hd => exact .failed he ht hnew (hdec hd)
  | created hs ht hc hd => exact .created hs ht hnew fun hr => hdec (hd hr)

/-- What the child's part of the state can become in a step of the parent, which always brings the
parent closer to its return. -/
lemma parentStep_cases (hstep : parentStep base procTy o s = some t) :
    t.parent.rank < s.parent.rank ∧ (t.child = s.child ∧ t.childWrite = s.childWrite ∨
      (∃ ptr pid, s.parent = .fork ptr ∧ t.parent = .recvmsg ptr pid) ∧ t.child = .pidfdOpen ∧
        t.childWrite = true ∨
      s.child = .zombie ∧ t.child = .reaped ∧ t.childWrite = s.childWrite) := by
  unfold parentStep at hstep
  cases hp : s.parent with
  | validate | insert =>
    rw [hp] at hstep
    dsimp only at hstep
    split at hstep <;> cases hstep <;> exact ⟨by simp [ParentPhase.rank],.inl ⟨rfl,rfl⟩⟩
  | socketpair | abortClose | install | dropWrite | failClose | unwind =>
    rw [hp] at hstep
    cases hstep
    exact ⟨by simp [ParentPhase.rank],.inl ⟨rfl,rfl⟩⟩
  | fork ptr =>
    rw [hp] at hstep
    dsimp only at hstep
    split at hstep
    · cases hstep
      exact ⟨by simp [ParentPhase.rank],.inl ⟨rfl,rfl⟩⟩
    · cases hstep
      exact ⟨by simp [ParentPhase.rank],.inr (.inl ⟨⟨ptr,_,rfl,rfl⟩,rfl,rfl⟩)⟩
  | recvmsg | read =>
    rw [hp] at hstep
    dsimp only at hstep
    split at hstep
    · cases hstep
      exact ⟨by simp [ParentPhase.rank],.inl ⟨rfl,rfl⟩⟩
    · split at hstep
      · cases hstep
        exact ⟨by simp [ParentPhase.rank],.inl ⟨rfl,rfl⟩⟩
      · cases hstep
        exact ⟨by simp [ParentPhase.rank],.inl ⟨rfl,rfl⟩⟩
      · split at hstep <;> cases hstep
        exact ⟨by simp [ParentPhase.rank],.inl ⟨rfl,rfl⟩⟩
  | abortWait =>
    rw [hp] at hstep
    dsimp only at hstep
    split at hstep
    · next hz =>
      cases hstep
      exact ⟨by simp [ParentPhase.rank],.inr (.inr ⟨hz,rfl,rfl⟩)⟩
    · cases hstep
  | failWait =>
    rw [hp] at hstep
    dsimp only at hstep
    split at hstep
    · split at hstep
      · next hz =>
        cases hstep
        exact ⟨by simp [ParentPhase.rank],.inr (.inr ⟨hz,rfl,rfl⟩)⟩
      · cases hstep
    · cases hstep
      exact ⟨by simp [ParentPhase.rank],.inl ⟨rfl,rfl⟩⟩
  | returned =>
    rw [hp] at hstep
    cases hstep

/-- Before the child is done it has sent nothing or its descriptor, then all of its script. -/
lemma sent_cases (o : Outcomes) (child : ChildPhase) :
    sent o child = [] ∨ sent o child = [.rights] ∨ child.Decided ∧ sent o child = o.script := by
  cases child with
  | absent | pidfdOpen | sendmsg => exact .inl rfl
  | execve | running => exact .inr (.inl rfl)
  | report e moved =>
    cases moved with
    | false => exact .inl rfl
    | true => exact .inr (.inl rfl)
  | exiting | zombie | reaped => exact .inr (.inr ⟨trivial,rfl⟩)

/-- The script is one error number, or the descriptor of the child and what follows `execve`. -/
lemma script_cases (o : Outcomes) :
    (o.pidfdOpen ≠ none ∨ o.sendmsg ≠ none) ∧ (∃ e, o.script = o.report e) ∨
      o.pidfdOpen = none ∧ o.sendmsg = none ∧ (o.execve = none ∧ o.script = [.rights] ∨
        ∃ e, o.execve = some e ∧ o.script = .rights::o.report e) := by
  unfold Outcomes.script
  cases hpid : o.pidfdOpen with
  | some e => exact .inl ⟨.inl nofun,e,rfl⟩
  | none =>
    cases hsend : o.sendmsg with
    | some e => exact .inl ⟨.inr nofun,e,rfl⟩
    | none =>
      refine .inr ⟨rfl,rfl,?_⟩
      cases hexec : o.execve with
      | none => exact .inl ⟨rfl,rfl⟩
      | some e => exact .inr ⟨e,rfl,rfl⟩

lemma report_cases (o : Outcomes) (e : Errno) :
    o.reports = false ∧ o.report e = [] ∨ o.reports = true ∧ o.report e = [.errno e.val] := by
  unfold Outcomes.report
  cases o.reports <;> simp

/-- The first message tells whether the child got as far as sending its descriptor. -/
lemma aborts_of_errno {child : ChildPhase} {n : ℕ} {queue : List Msg}
    (hq : sent o child = .errno n::queue) : o.pidfdOpen ≠ none ∨ o.sendmsg ≠ none := by
  obtain hs | hs | ⟨-,hs⟩ := sent_cases o child
  · rw [hs] at hq
    cases hq
  · rw [hs] at hq
    cases hq
  · rw [hs] at hq
    obtain ⟨habort,-⟩ | ⟨-,-,⟨-,hscript⟩ | ⟨e,-,hscript⟩⟩ := script_cases o
    · exact habort
    · rw [hscript] at hq
      cases hq
    · rw [hscript] at hq
      cases hq

/-- A second message comes at the end of the script: it is the error number of `execve`. -/
lemma second_message {child : ChildPhase} {msg : Msg} {queue : List Msg}
    (hq : .rights::msg::queue = sent o child) :
    child.Decided ∧ o.pidfdOpen = none ∧ o.sendmsg = none ∧ o.reports = true ∧
      ∃ e, o.execve = some e ∧ msg = .errno e.val := by
  obtain hs | hs | ⟨hd,hs⟩ := sent_cases o child
  · rw [hs] at hq
    cases hq
  · rw [hs] at hq
    cases hq
  · rw [hs] at hq
    obtain ⟨-,e,hscript⟩ | ⟨hpid,hsend,⟨-,hscript⟩ | ⟨e,hexec,hscript⟩⟩ := script_cases o
    · obtain ⟨-,hrep⟩ | ⟨-,hrep⟩ := report_cases o e <;> rw [hscript,hrep] at hq <;> cases hq
    · rw [hscript] at hq
      cases hq
    · obtain ⟨-,hrep⟩ | ⟨hreports,hrep⟩ := report_cases o e <;> rw [hscript,hrep] at hq <;> cases hq
      exact ⟨hd,hpid,hsend,hreports,e,hexec,rfl⟩

/-- At the end of the stream `execve` has succeeded, unless the error number got lost. -/
lemma succeeds_of_end {child : ChildPhase} (hf : Follows o child) (hbusy : ¬ child.Busy)
    (hc : child.Forked) (hq : [.rights] = sent o child) :
    child.Decided ∧ (o.execve = none ∨ o.reports = false) := by
  have hscript : [.rights] = o.script → o.execve = none ∨ o.reports = false := by
    intro hs
    obtain ⟨-,e,hscript⟩ | ⟨-,-,⟨hexec,-⟩ | ⟨e,-,hscript⟩⟩ := script_cases o
    · obtain ⟨hreports,-⟩ | ⟨-,hrep⟩ := report_cases o e
      · exact .inr hreports
      · rw [hscript,hrep] at hs
        cases hs
    · exact .inl hexec
    · obtain ⟨hreports,-⟩ | ⟨-,hrep⟩ := report_cases o e
      · exact .inr hreports
      · rw [hscript,hrep] at hs
        cases hs
  cases child with
  | absent => exact absurd rfl hc.1
  | pidfdOpen | sendmsg | execve | report => exact absurd trivial hbusy
  | running => exact ⟨trivial,.inl hf.2.2⟩
  | exiting | zombie | reaped => exact ⟨trivial,hscript hq⟩

section Parent

variable {table : Table} {ptr : Word} {pid : BitVec 32} {child : ChildPhase} {queue : List Msg}
  {w : Bool}

/-- What the parent makes of the first message. -/
lemma stage_recvmsg (hf : o.Fresh f₀) (ht : Taken base t₀ ptr (emptyHandle procTy) table)
    (hc : child.Forked) (hstep : parentStep base procTy o
      ⟨table,opens o f₀ true true false,.recvmsg ptr pid,child,sent o child,w⟩ = some t) :
    Stage base procTy o t₀ f₀ t := by
  cases ho : o.recvmsg with
  | some e =>
    simp only [parentStep,ho,Option.some.injEq] at hstep
    subst hstep
    exact .abortClose (.inl (by rw [ho]; nofun)) ht hc
  | none =>
    cases hq : sent o child with
    | nil =>
      simp only [parentStep,ho,hq,Creation.writers,(opens_write hf).mpr,decide_true,Bool.true_or,
        if_true] at hstep
      cases hstep
    | cons msg queue =>
      cases msg with
      | rights =>
        simp only [parentStep,ho,hq,Option.some.injEq] at hstep
        subst hstep
        rw [opens_pid hf]
        exact .install ho ht hc hq.symm
      | errno n =>
        simp only [parentStep,ho,hq,Option.some.injEq] at hstep
        subst hstep
        exact .abortClose (.inr (aborts_of_errno hq)) ht hc

/-- What it makes of the second one, or of the end of the stream. -/
lemma stage_read (hf : o.Fresh f₀) (hfol : Follows o child) (hr : o.recvmsg = none)
    (hwr : child.Busy → w = true)
    (ht : Taken base t₀ ptr (filledHandle procTy pid o.pidFd) table) (hc : child.Forked)
    (hq : .rights::queue = sent o child) (hstep : parentStep base procTy o
      ⟨table,opens o f₀ true false true,.read ptr o.pidFd,child,queue,w⟩ = some t) :
    Stage base procTy o t₀ f₀ t := by
  simp only [parentStep,opens_closeRead hf] at hstep
  cases ho : o.read with
  | some e =>
    simp only [ho,Option.some.injEq] at hstep
    subst hstep
    exact .created (.inl (by rw [ho]; nofun)) ht hc (by rw [ho]; nofun)
  | none =>
    cases queue with
    | nil =>
      simp only [ho] at hstep
      split at hstep
      · cases hstep
      · next hend =>
        cases hstep
        -- the stream ends only when the child has let go of its end of the socket
        have hbusy : ¬ child.Busy := by
          intro hb
          simp [Creation.writers,hwr hb] at hend
        obtain ⟨hd,hs⟩ := succeeds_of_end hfol hbusy hc hq
        exact .created (.inr hs) ht hc fun _ => hd
    | cons msg queue =>
      obtain ⟨hd,hpid,hsend,hrep,e,hexec,rfl⟩ := second_message hq
      simp only [ho,Option.some.injEq] at hstep
      subst hstep
      exact .failClose ⟨hpid,hsend,hexec,hrep,hr,ho⟩ ht hc hd

end Parent

lemma stage_parentStep (hb : Placed base) (hf : o.Fresh f₀) (h : Inv base procTy o t₀ f₀ s)
    (hstep : parentStep base procTy o s = some t) : Stage base procTy o t₀ f₀ t := by
  obtain ⟨-,hfol,hwr,hstage⟩ := h
  cases hstage with
  | validate =>
    cases hv : o.valid with
    | none =>
      simp only [parentStep,hv,Option.some.injEq] at hstep
      subst hstep
      exact .socketpair hv
    | some e =>
      simp only [parentStep,hv,Option.some.injEq] at hstep
      subst hstep
      exact .refused hv
  | socketpair hv =>
    obtain rfl := Option.some.inj hstep
    rw [opens_sockets hf]
    exact .insert hv
  | insert hv =>
    obtain ⟨hfull,hins⟩ | ⟨i,hfree,hins⟩ := insertHandle_cases base (emptyHandle procTy) t₀
    · simp only [parentStep,hins,Option.some.injEq] at hstep
      subst hstep
      exact .unwindFull hfull (restored_refl t₀)
    · simp only [parentStep,hins,Option.some.injEq] at hstep
      subst hstep
      exact .fork hv ⟨i,hfree,rfl,rfl,rfl⟩
  | fork hv ht =>
    cases ho : o.fork with
    | error e =>
      simp only [parentStep,ho,Option.some.injEq] at hstep
      subst hstep
      exact .unwindFork hv ho ht
    | ok pid =>
      simp only [parentStep,ho,Option.some.injEq] at hstep
      subst hstep
      exact .recvmsg ht ⟨nofun,nofun⟩
  | recvmsg ht hc => exact stage_recvmsg hf ht hc hstep
  | abortClose ha ht hc =>
    obtain rfl := Option.some.inj hstep
    rw [ht.closeHandle hb,closes_emptyHandle]
    exact .abortWait ha (ht.restored hb) hc
  | @abortWait table e child queue w ha ht hc =>
    cases child with
    | zombie =>
      obtain rfl := Option.some.inj hstep
      exact .unwindAbort ha ht
    | absent | pidfdOpen | sendmsg | execve | report | exiting | running | reaped => cases hstep
  | install hr ht hc hq =>
    obtain rfl := Option.some.inj hstep
    exact .dropWrite hr (ht.fill hb) hc hq
  | dropWrite hr ht hc hq =>
    obtain rfl := Option.some.inj hstep
    rw [opens_closeWrite hf]
    exact .read hr ht hc hq
  | read hr ht hc hq => exact stage_read hf hfol hr hwr.busy ht hc hq hstep
  | failClose he ht hc hd =>
    obtain rfl := Option.some.inj hstep
    rw [ht.closeHandle hb,closes_filledHandle hf.nonneg]
    have hfds : [o.pidFd].foldl (fun f fd => Function.update f fd none)
        (opens o f₀ false false true) = f₀ := by
      rw [List.foldl_cons,List.foldl_nil,opens_closePid hf,opens_none]
    dsimp only
    rw [hfds]
    exact .failWait he (ht.restored hb) hc hd
  | failWait he ht hc hd =>
    simp only [parentStep,hf.pid] at hstep
    rw [if_neg nofun,Errno.new_val] at hstep
    obtain rfl := Option.some.inj hstep
    exact .failed he ht hc hd
  | unwindFull hfull ht =>
    obtain rfl := Option.some.inj hstep
    rw [opens_closeRead hf,opens_closeWrite hf,opens_none]
    exact .full hfull ht
  | unwindFork hv he ht =>
    obtain rfl := Option.some.inj hstep
    rw [opens_closeRead hf,opens_closeWrite hf,opens_none]
    exact .unforked hv he ht
  | unwindAbort ha ht =>
    obtain rfl := Option.some.inj hstep
    rw [opens_closeRead hf,opens_closeWrite hf,opens_none]
    exact .aborted ha ht
  | refused | full | unforked | aborted | failed | created => cases hstep

lemma Stage.entered_of_fork {ptr : Word} (h : Stage base procTy o t₀ f₀ s)
    (hp : s.parent = .fork ptr) : Entered o t₀ := by
  cases h with
  | fork hv ht =>
    obtain ⟨i,hfree,-⟩ := ht
    exact ⟨hv,i,hfree⟩
  | validate | socketpair | insert | recvmsg | abortClose | abortWait | install | dropWrite | read
  | failClose | failWait | unwindFull | unwindFork | unwindAbort | refused | full | unforked
  | aborted | failed | created => cases hp

lemma inv_step (hb : Placed base) (hf : o.Fresh f₀) (h : Inv base procTy o t₀ f₀ s) {who : Who}
    (hstep : createStep base procTy o s who = some t) : Inv base procTy o t₀ f₀ t := by
  cases who with
  | child => exact inv_childStep h hstep
  | parent =>
    have hstep : parentStep base procTy o s = some t := hstep
    have hstage := stage_parentStep hb hf h hstep
    obtain ⟨-,⟨hc,hw⟩ | ⟨⟨ptr,_,hp,-⟩,hc,hw⟩ | ⟨hz,hc,hw⟩⟩ := parentStep_cases hstep
    · exact ⟨hc ▸ h.entered,hc ▸ h.follows,
        ⟨by rw [hc,hw]; exact h.writes.busy,by rw [hc,hw]; exact h.writes.moves⟩,hstage⟩
    · exact ⟨fun _ => h.stage.entered_of_fork hp,by rw [hc]; trivial,
        ⟨fun _ => hw,fun _ => .inl (by rw [hc]; trivial)⟩,hstage⟩
    · refine ⟨fun _ => h.entered (by rw [hz]; nofun),by rw [hc]; trivial,
        ⟨by rw [hc]; nofun,fun hopen => ?_⟩,hstage⟩
      have hmoves := h.writes.moves (hw ▸ hopen)
      rw [hz] at hmoves
      obtain hbusy | hexit := hmoves
      · cases hbusy
      · cases hexit

lemma run_inv (hb : Placed base) (hf : o.Fresh f₀) {es : List Who}
    (hrun : run (createStep base procTy o) (.initial t₀ f₀) es = some s) :
    Inv base procTy o t₀ f₀ s :=
  run_invariant (fun _ _ _ h ht => inv_step hb hf h ht)
    (initial_inv base procTy o t₀ f₀) hrun

end Stages

end WinterLily.Process
