import WinterLily.Process.Stages

/-! What the caller of `CreateProcess` learns about the child, and what a failing call leaves
behind. -/
namespace WinterLily.Process
open WinterLily.Handles WinterLily.Transition

/-- The system calls before `execve` succeed, and the socket delivers what is sent. -/
structure Outcomes.Reliable (o : Outcomes) : Prop where
  fork : ∃ pid, o.fork = .ok pid
  pidfdOpen : o.pidfdOpen = none
  sendmsg : o.sendmsg = none
  reports : o.reports = true
  recvmsg : o.recvmsg = none
  read : o.read = none

def Creation.rank (s : Creation) : ℕ := s.parent.rank+s.child.rank

section Progress

variable {base procTy : Word} {o : Outcomes} {t₀ : Table} {f₀ : Fd → Option File} {s t : Creation}

lemma childStep_rank (hstep : childStep o s = some t) :
    t.parent = s.parent ∧ t.child.rank < s.child.rank := by
  unfold childStep at hstep
  cases hc : s.child with
  | absent | zombie | reaped =>
    rw [hc] at hstep
    cases hstep
  | pidfdOpen | sendmsg | execve =>
    rw [hc] at hstep
    dsimp only at hstep
    split at hstep <;> cases hstep <;> exact ⟨rfl,by simp [ChildPhase.rank]⟩
  | report | exiting | running =>
    rw [hc] at hstep
    cases hstep
    exact ⟨rfl,by simp [ChildPhase.rank]⟩

lemma rank_step {who : Who} (hstep : createStep base procTy o s who = some t) : t.rank < s.rank := by
  unfold Creation.rank
  cases who with
  | child =>
    obtain ⟨hp,hlt⟩ := childStep_rank hstep
    rw [hp]
    omega
  | parent =>
    have hstep : parentStep base procTy o s = some t := hstep
    obtain ⟨hlt,⟨hc,-⟩ | ⟨⟨ptr,pid,hp,hp'⟩,hc,-⟩ | ⟨hz,hc,-⟩⟩ := parentStep_cases hstep
    · rw [hc]
      omega
    · rw [hp,hp',hc]
      change 8+6 < 16+s.child.rank
      omega
    · rw [hz,hc]
      change t.parent.rank+0 < s.parent.rank+1
      omega

/-- What the child sends when nothing before `execve` fails. -/
lemma Outcomes.Reliable.script_ne_nil (ho : o.Reliable) : o.script ≠ [] := by
  simp [Outcomes.script,ho.pidfdOpen,ho.sendmsg]

lemma Outcomes.Reliable.not_aborts (ho : o.Reliable) : ¬ o.Aborts := by
  simp [Outcomes.Aborts,ho.recvmsg,ho.pidfdOpen,ho.sendmsg]

/-- Neither side is ever stuck before the parent returns. -/
lemma exists_step (ho : o.Reliable) (hf : o.Fresh f₀) (h : Inv base procTy o t₀ f₀ s) :
    (∃ r, s.parent = .returned r) ∨ ∃ who t, createStep base procTy o s who = some t := by
  obtain ⟨-,hfol,hwr,hstage⟩ := h
  cases hstage with
  | validate =>
    refine .inr ⟨.parent,?_⟩
    cases hv : o.valid <;> exact ⟨_,by simp only [createStep,parentStep,hv]; rfl⟩
  | insert hv =>
    refine .inr ⟨.parent,?_⟩
    obtain ⟨-,hins⟩ | ⟨i,-,hins⟩ := insertHandle_cases base (emptyHandle procTy) t₀ <;>
      exact ⟨_,by simp only [createStep,parentStep,hins]; rfl⟩
  | fork hv ht =>
    obtain ⟨pid,hpid⟩ := ho.fork
    exact .inr ⟨.parent,_,by simp only [createStep,parentStep,hpid]; rfl⟩
  | @recvmsg table ptr pid child w ht hc =>
    cases hq : sent o child with
    | nil =>
      refine .inr ⟨.child,childStep_isSome (.inl ?_)⟩
      cases child with
      | absent => exact absurd rfl hc.1
      | execve | running => cases hq
      | pidfdOpen | sendmsg | report => trivial
      | exiting | zombie | reaped => exact absurd hq ho.script_ne_nil
    | cons msg queue =>
      refine .inr ⟨.parent,?_⟩
      cases msg <;> exact ⟨_,by simp only [createStep,parentStep,ho.recvmsg]; rfl⟩
  | abortClose ha | abortWait ha => exact absurd ha ho.not_aborts
  | @read table ptr pid child queue w hr ht hc hq =>
    cases queue with
    | nil =>
      cases w with
      | true => exact .inr ⟨.child,childStep_isSome (hwr.moves rfl)⟩
      | false =>
        refine .inr ⟨.parent,?_⟩
        simp only [createStep,parentStep,ho.read,opens_closeRead hf,Creation.writers,
          Bool.or_false]
        exact ⟨_,if_neg (by simp [opens_write hf])⟩
    | cons msg queue =>
      refine .inr ⟨.parent,?_⟩
      cases msg <;> exact ⟨_,by simp only [createStep,parentStep,ho.read]; rfl⟩
  | failWait he ht hc hd =>
    exact .inr ⟨.parent,_,by
      simp only [createStep,parentStep,hf.pid]
      rw [if_neg (Option.some_ne_none _).symm]⟩
  | socketpair | install | dropWrite | failClose | unwindFull | unwindFork | unwindAbort =>
    exact .inr ⟨.parent,_,rfl⟩
  | refused | full | unforked | aborted | failed | created => exact .inl ⟨_,rfl⟩

end Progress

/-- However parent and child interleave, the call returns, not before the outcome of `execve` is
decided, and reports that outcome; only arguments that are refused or a full handle table make it
return without a child. -/
theorem createProcess_reports_execve {base procTy : Word} (hb : Placed base) {o : Outcomes}
    (ho : o.Reliable) {t₀ : Table} {f₀ : Fd → Option File} (hf : o.Fresh f₀) (es : List Who)
    (s : Creation) (hrun : run (createStep base procTy o) (.initial t₀ f₀) es = some s) :
    es.length ≤ 19 ∧
      ((∃ r, s.parent = .returned r) ∨ ∃ who t, createStep base procTy o s who = some t) ∧
      ∀ r, s.parent = .returned r →
        s.child = .absent ∧ (∃ e, r = .error e) ∧
            (o.valid ≠ none ∨ ∀ i, (t₀.slots i).ty ≠ 0#64) ∨
          s.child.Decided ∧ ((∃ ptr, r = .ok ptr) ↔ o.execve = none) ∧
            (∀ ptr, r = .ok ptr → ∃ i, ptr = slotAddr base i ∧
              (s.table.slots i).fd = o.pidFd.signExtend 64 ∧ s.fds o.pidFd = some .pidfd) ∧
            ∀ e, o.execve = some e → r = .error (linuxErrorToLilium e) := by
  have hinv := run_inv hb hf hrun
  have hlen := run_length_le Creation.rank (fun _ _ _ => rank_step) hrun
  refine ⟨?_,exists_step ho hf hinv,fun r hr => ?_⟩
  · have hstart : (Creation.initial t₀ f₀).rank = 19 := rfl
    omega
  · obtain ⟨-,-,-,hstage⟩ := hinv
    cases hstage with
    | refused he =>
      cases hr
      exact .inl ⟨rfl,⟨_,rfl⟩,.inl (by rw [he]; nofun)⟩
    | full hfull ht =>
      cases hr
      exact .inl ⟨rfl,⟨_,rfl⟩,.inr hfull⟩
    | unforked hv he ht =>
      obtain ⟨pid,hpid⟩ := ho.fork
      rw [hpid] at he
      cases he
    | aborted ha ht => exact absurd ha ho.not_aborts
    | failed he ht hc hd =>
      cases hr
      refine .inr ⟨hd,?_,nofun,fun e hexec => ?_⟩
      · rw [he.execve]
        exact iff_of_false nofun nofun
      · rw [he.execve] at hexec
        cases hexec
        rfl
    | created hs ht hc hd =>
      cases hr
      have hexec : o.execve = none := by
        obtain hread | hexec | hrep := hs
        · exact absurd ho.read hread
        · exact hexec
        · rw [ho.reports] at hrep
          cases hrep
      refine .inr ⟨hd ho.read,iff_of_true ⟨_,rfl⟩ hexec,fun ptr hptr => ?_,by rw [hexec]; nofun⟩
      cases hptr
      obtain ⟨i,-,hptr,hslots,-⟩ := ht
      refine ⟨i,hptr,?_,?_⟩
      · dsimp only
        rw [hslots,Function.update_self]
        rfl
      · simp [opens,hf.readPid.symm,hf.writePid.symm]
    | validate | socketpair | insert | fork | recvmsg | abortClose | abortWait | install
    | dropWrite | read | failClose | failWait | unwindFull | unwindFork | unwindAbort => cases hr

/-- Everything succeeds but `execve`, which does not find the program. -/
def missingProgram : Outcomes :=
  ⟨none,.ok 100#32,none,none,some ⟨2,by decide,by decide⟩,true,none,none,3#32,4#32,5#32⟩

def noFiles : Fd → Option File := fun _ => none

lemma missingProgram_reliable : missingProgram.Reliable := ⟨⟨_,rfl⟩,rfl,rfl,rfl,rfl,rfl⟩

lemma missingProgram_fresh : missingProgram.Fresh noFiles :=
  ⟨rfl,rfl,rfl,by decide,by decide,by decide,by decide⟩

lemma placed_example : Placed 0x10000#64 := ⟨by decide,by decide⟩

/-- The error that was returned, if one was. -/
def ParentPhase.failure : ParentPhase → Option LiliumError
  | .returned (.error e) => some e
  | _ => none

lemma returned_of_failure {p : ParentPhase} {e : LiliumError} (h : p.failure = some e) :
    p = .returned (.error e) := by
  cases p with
  | returned r =>
    cases r with
    | error e' =>
      cases h
      rfl
    | ok ptr => cases h
  | validate | socketpair | insert | fork | recvmsg | abortClose | abortWait | install | dropWrite
  | read | failClose | failWait | unwind => cases h

/-- The child fails while the parent still waits for its descriptor. -/
def missingProgramRun : List Who :=
  [.parent,.parent,.parent,.parent,.child,.child,.child,.child,.parent,.parent,.child,.parent,.parent,
    .parent,.parent]

lemma missingProgramRun_end :
    ∃ s, run (createStep 0x10000#64 7#64 missingProgram) (.initial .initial noFiles)
        missingProgramRun = some s ∧ s.parent = .returned (.error .doesNotExist) ∧
      s.child = .zombie := by
  have hrun : (run (createStep 0x10000#64 7#64 missingProgram) (.initial .initial noFiles)
      missingProgramRun).map (fun s => (s.parent.failure,s.child)) =
        some (some .doesNotExist,.zombie) := by
    decide +kernel
  obtain ⟨s,hs,hend⟩ := Option.map_eq_some_iff.mp hrun
  obtain ⟨hfail,hchild⟩ := Prod.mk.inj hend
  exact ⟨s,hs,returned_of_failure hfail,hchild⟩

theorem createProcess_reports_execve_missing :
    ∃ s, run (createStep 0x10000#64 7#64 missingProgram) (.initial .initial noFiles)
        missingProgramRun = some s ∧ s.parent = .returned (.error .doesNotExist) ∧
      s.child.Decided := by
  obtain ⟨s,hs,hr,hchild⟩ := missingProgramRun_end
  obtain ⟨-,-,hreport⟩ := createProcess_reports_execve placed_example missingProgram_reliable
    missingProgram_fresh _ s hs
  obtain ⟨habsent,-⟩ | ⟨hdecided,-⟩ := hreport _ hr
  · rw [hchild] at habsent
    cases habsent
  · exact ⟨s,hs,hr,hdecided⟩

section Cleanup

/-- The slots, the count of live handles and the descriptors are as before, and no child is left. -/
structure LeavesNothing (t₀ : Table) (f₀ : Fd → Option File) (s : Creation) : Prop where
  slots : s.table.slots = t₀.slots
  live : s.table.liveHandles = t₀.liveHandles
  fds : s.fds = f₀
  reaped : s.child = .absent ∨ s.child = .reaped

/-- The call fails before it takes a slot, or the fork succeeds and the error number of `execve` does
not arrive after the descriptor of the child. -/
def Outcomes.CleansUp (o : Outcomes) (t₀ : Table) : Prop :=
  o.valid ≠ none ∨ (∀ i, (t₀.slots i).ty ≠ 0#64) ∨
    (∃ pid, o.fork = .ok pid) ∧ ¬ (o.pidfdOpen = none ∧ o.sendmsg = none ∧ o.execve ≠ none ∧
      o.reports = true ∧ o.recvmsg = none ∧ o.read = none)

variable {base procTy : Word} {o : Outcomes} {t₀ : Table} {f₀ : Fd → Option File} {s t : Creation}

lemma Restored.slots_eq {table : Table} (h : Restored t₀ table) (ht : t₀.Tidy) :
    table.slots = t₀.slots := by
  funext j
  obtain heq | ⟨hfree,hzero⟩ := h.1 j
  · exact heq
  · rw [hzero,ht j hfree]

lemma CleansUp.not_fails (hc : o.CleansUp t₀) (he : Entered o t₀) (e : Errno) : ¬ o.Fails e := by
  intro hfail
  obtain hv | hfull | ⟨-,hnot⟩ := hc
  · exact hv he.1
  · obtain ⟨i,hi⟩ := he.2
    exact hfull i hi
  · exact hnot ⟨hfail.pidfdOpen,hfail.sendmsg,by rw [hfail.execve]; nofun,hfail.reports,
      hfail.recvmsg,hfail.read⟩

/-- A call whose fork fails keeps its slot. -/
lemma unforked_run (f₀ : Fd → Option File) (hv : o.valid = none) {i : Fin nHandles} {hint : ℕ} {e : Errno}
    (hins : insertHandle base (emptyHandle procTy) t₀ = (.ok (slotAddr base i),
      ⟨Function.update t₀.slots i (emptyHandle procTy),hint,t₀.liveHandles+1#64⟩))
    (hfork : o.fork = .error e) :
    ∃ s, run (createStep base procTy o) (.initial t₀ f₀)
        [.parent,.parent,.parent,.parent,.parent] = some s ∧
      s.parent = .returned (.error (linuxErrorToLilium e)) ∧
      s.table.slots i = emptyHandle procTy := by
  simp [run,createStep,parentStep,Creation.initial,hv,hins,hfork]

/-- A call that learns of the failure of `execve` reaches its return with the child not waited for. -/
lemma failed_run (procTy : Word) (hb : Placed base) (hf : o.Fresh f₀) (ho : o.Reliable) (he : Entered o t₀)
    (hexec : o.execve ≠ none) :
    ∃ es s e, run (createStep base procTy o) (.initial t₀ f₀) es = some s ∧
      s.parent = .returned (.error e) ∧ s.child.Forked := by
  obtain ⟨es,s,hrun,r,hr⟩ := exists_run_goal Creation.rank
    (G := fun s => ∃ r, s.parent = .returned r) (fun _ _ _ => rank_step)
    (fun _ _ _ h ht => inv_step hb hf h ht) (fun _ h => exists_step ho hf h)
    (initial_inv base procTy o t₀ f₀)
  obtain ⟨-,-,-,hstage⟩ := run_inv hb hf hrun
  cases hstage with
  | failed hfail ht hc hd => exact ⟨es,_,_,hrun,rfl,hc⟩
  | refused hv =>
    rw [he.1] at hv
    cases hv
  | full hfull ht =>
    obtain ⟨i,hi⟩ := he.2
    exact absurd hi (hfull i)
  | unforked hv hfork ht =>
    obtain ⟨pid,hpid⟩ := ho.fork
    rw [hpid] at hfork
    cases hfork
  | aborted ha ht => exact absurd ha ho.not_aborts
  | created hs ht hc hd =>
    obtain hread | hnone | hrep := hs
    · exact absurd ho.read hread
    · exact absurd hnone hexec
    · rw [ho.reports] at hrep
      cases hrep
  | validate | socketpair | insert | fork | recvmsg | abortClose | abortWait | install
  | dropWrite | read | failClose | failWait | unwindFull | unwindFork | unwindAbort => cases hr

end Cleanup

/-- A failing call leaves nothing behind exactly when it fails before it takes a slot, or forks and
does not learn of a failing `execve`. -/
theorem failing_createProcess_leaves_nothing_iff {base procTy : Word} (hb : Placed base)
    (hty : procTy ≠ 0#64) {o : Outcomes} {t₀ : Table} (ht : t₀.Tidy)
    {f₀ : Fd → Option File} (hf : o.Fresh f₀) :
    (∀ es s e, run (createStep base procTy o) (.initial t₀ f₀) es = some s →
        s.parent = .returned (.error e) → LeavesNothing t₀ f₀ s) ↔ o.CleansUp t₀ := by
  constructor
  · intro hall
    by_contra hnot
    obtain ⟨hv,hrest⟩ := not_or.mp hnot
    obtain ⟨hfull,hrest⟩ := not_or.mp hrest
    have hv : o.valid = none := not_not.mp hv
    obtain ⟨hfull',-⟩ | ⟨i,hfree,hins⟩ := insertHandle_cases base (emptyHandle procTy) t₀
    · exact absurd hfull' hfull
    cases hfork : o.fork with
    | error e =>
      obtain ⟨s,hrun,hr,hslot⟩ := unforked_run f₀ hv hins hfork
      have hslots := (hall _ s _ hrun hr).slots
      rw [hslots] at hslot
      rw [hslot] at hfree
      exact hty hfree
    | ok pid =>
      obtain ⟨hpid,hsend,hexec,hrep,hrecv,hread⟩ : o.pidfdOpen = none ∧ o.sendmsg = none ∧
          o.execve ≠ none ∧ o.reports = true ∧ o.recvmsg = none ∧ o.read = none := by
        by_contra hcond
        exact hrest ⟨⟨pid,hfork⟩,hcond⟩
      obtain ⟨es,s,e,hrun,hr,hforked⟩ := failed_run procTy hb hf
        ⟨⟨pid,hfork⟩,hpid,hsend,hrep,hrecv,hread⟩ ⟨hv,i,hfree⟩ hexec
      obtain habsent | hreaped := (hall es s e hrun hr).reaped
      · exact hforked.1 habsent
      · exact hforked.2 hreaped
  · intro hclean es s e hrun hr
    obtain ⟨hentered,-,-,hstage⟩ := run_inv hb hf hrun
    cases hstage with
    | refused he => exact ⟨rfl,rfl,rfl,.inl rfl⟩
    | full hfull hres => exact ⟨hres.slots_eq ht,hres.2,rfl,.inl rfl⟩
    | aborted ha hres => exact ⟨hres.slots_eq ht,hres.2,rfl,.inr rfl⟩
    | unforked hv he htaken =>
      obtain ⟨i,hfree,-⟩ := htaken
      obtain hv' | hfull | ⟨⟨pid,hpid⟩,-⟩ := hclean
      · exact absurd hv hv'
      · exact absurd hfree (hfull i)
      · rw [hpid] at he
        cases he
    | failed he hres hc hd =>
      exact absurd he (CleansUp.not_fails hclean (hentered hc.1) _)
    | created => cases hr
    | validate | socketpair | insert | fork | recvmsg | abortClose | abortWait | install
    | dropWrite | read | failClose | failWait | unwindFull | unwindFork | unwindAbort => cases hr

/-- A signal interrupts the parent while it waits for the descriptor of the child. -/
def interruptedReceive : Outcomes :=
  { missingProgram with execve := none, recvmsg := some ⟨4,by decide,by decide⟩ }

theorem failing_createProcess_leaves_nothing_interrupted :
    interruptedReceive.CleansUp .initial ∧
      ∃ s, run (createStep 0x10000#64 7#64 interruptedReceive) (.initial .initial noFiles)
          [.parent,.parent,.parent,.parent,.parent,.child,.parent,.child,.child,.child,.parent,
            .parent] = some s ∧
        s.parent = .returned (.error .interrupted) ∧ LeavesNothing .initial noFiles s := by
  have hclean : interruptedReceive.CleansUp .initial :=
    .inr (.inr ⟨⟨_,rfl⟩,fun h => nomatch h.2.2.2.2.1⟩)
  have hrun : (run (createStep 0x10000#64 7#64 interruptedReceive) (.initial .initial noFiles)
      [.parent,.parent,.parent,.parent,.parent,.child,.parent,.child,.child,.child,.parent,
        .parent]).map (fun s => s.parent.failure) = some (some .interrupted) := by
    decide +kernel
  obtain ⟨s,hs,hfail⟩ := Option.map_eq_some_iff.mp hrun
  have hr := returned_of_failure hfail
  exact ⟨hclean,s,hs,hr,(failing_createProcess_leaves_nothing_iff placed_example (by decide)
    (reachable_tidy 0x10000#64 [] _ rfl)
    ⟨rfl,rfl,rfl,by decide,by decide,by decide,by decide⟩).mpr hclean _ s _ hs hr⟩

/-- The kernel refuses to fork. -/
def forkRefused : Outcomes := { missingProgram with fork := .error ⟨12,by decide,by decide⟩ }

/-- After a fork that fails the slot stays taken; after an `execve` that fails the child stays a
zombie, because the descriptor to wait for it by has just been closed. -/
theorem failing_createProcess_leaves_slot_and_zombie :
    (∃ s, run (createStep 0x10000#64 7#64 forkRefused) (.initial .initial noFiles)
        [.parent,.parent,.parent,.parent,.parent] = some s ∧
      s.parent = .returned (.error .insufficientMemory) ∧ s.table.liveHandles = 1#64 ∧
      ¬ LeavesNothing .initial noFiles s) ∧
    ∃ s, run (createStep 0x10000#64 7#64 missingProgram) (.initial .initial noFiles)
        missingProgramRun = some s ∧
      s.parent = .returned (.error .doesNotExist) ∧ s.child = .zombie ∧
      ¬ LeavesNothing .initial noFiles s := by
  constructor
  · have hrun : (run (createStep 0x10000#64 7#64 forkRefused) (.initial .initial noFiles)
        [.parent,.parent,.parent,.parent,.parent]).map
          (fun s => (s.parent.failure,s.table.liveHandles)) =
          some (some .insufficientMemory,1#64) := by
      decide +kernel
    obtain ⟨s,hs,hend⟩ := Option.map_eq_some_iff.mp hrun
    obtain ⟨hfail,hlive⟩ := Prod.mk.inj hend
    refine ⟨s,hs,returned_of_failure hfail,hlive,fun hleaves => ?_⟩
    have hzero : s.table.liveHandles = 0#64 := hleaves.live
    rw [hlive] at hzero
    cases hzero
  · obtain ⟨s,hs,hr,hchild⟩ := missingProgramRun_end
    refine ⟨s,hs,hr,hchild,fun hleaves => ?_⟩
    obtain habsent | hreaped := hleaves.reaped
    · rw [hchild] at habsent
      cases habsent
    · rw [hchild] at hreaped
      cases hreaped

end WinterLily.Process
