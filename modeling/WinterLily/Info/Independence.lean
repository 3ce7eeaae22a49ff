import WinterLily.Info.SystemInfo

/-! Requests of one `GetSystemInfo` that are apart from each other. A request's plan is what it comes
to when nothing faults: the value returned and the strings copied. The loop follows the plans, so that
requests can only come in each other's way through the bytes that they copy: the emulator's own strings
are in memory too, and a buffer may be over one of them. -/
namespace WinterLily.Info
open WinterLily.Memory WinterLily.Access WinterLily.Stride WinterLily.Syscall
open WinterLily.Handles (LiliumError)

/-- A string and where it is copied to. -/
abbrev StrCopy := Str × KStrPtr

def Str.span (st : Str) : Span 64 := ⟨st.ptr,st.len⟩
def KStrPtr.span (k : KStrPtr) : Span 64 := ⟨k.strPtr,k.len⟩

/-- The overlap test of `copy_nonoverlapping_checked`. -/
def StrCopy.refused (c : StrCopy) : Bool :=
  inRange c.1.ptr (Host.copyLen c.2 c.1) c.2.strPtr ||
    inRange c.2.strPtr (Host.copyLen c.2 c.1) c.1.ptr

/-- How many bytes a copy moves; `__memcpy_explicit` may leave out the last one. -/
def StrCopy.moved (c : StrCopy) : ℕ := covered (Host.copyLen c.2 c.1).toNat

/-- What a copy makes of memory. -/
def StrCopy.apply (c : StrCopy) (m : Mem 64) : Mem 64 := m.copy c.1.ptr c.2.strPtr c.moved

def patch (cs : List StrCopy) (m : Mem 64) : Mem 64 := cs.foldl (fun m c => c.apply m) m

/-- A value and the copies made on the way to it. -/
def Plan (α : Type) := α × List StrCopy

instance : Monad Plan where
  pure v := (v,[])
  bind x f := ((f x.1).1,x.2++(f x.1).2)

def planned : Effects Plan where
  store _ := ((),[])
  fillStr _ k st :=
    if StrCopy.refused (st,k) then ((.error .invalidMemory,k),[]) else (Host.filled k st,[(st,k)])

/-- Those of a list of copies that are made. -/
def made (cs : List StrCopy) : List StrCopy := cs.filter fun c => !c.refused

lemma planned_copies (f : Field) (k : KStrPtr) (st : Str) :
    (planned.fillStr f k st).2 = made [(st,k)] := by
  unfold planned made
  cases h : StrCopy.refused (st,k) <;> simp [h]

lemma planned_length (f : Field) (k : KStrPtr) (st : Str) : (planned.fillStr f k st).1.2 =
    if StrCopy.refused (st,k) then k else ⟨k.strPtr,st.len⟩ := by
  unfold planned Host.filled
  cases h : StrCopy.refused (st,k) <;> simp [h]

def System.plan (S : System) (req : SysInfoRequest) : Plan (Result × SysInfoRequest) :=
  processRequest S planned req

/-- The strings that the type of a request is answered with. -/
def System.strings (S : System) (req : SysInfoRequest) : List StrCopy :=
  if req.head.ty = S.types.osver then [(S.osElabName,req.osVersion.osvendorName)]
  else if req.head.ty = S.types.kvendor then [(S.kvendorName,req.kernelVendor.kvendorName)]
  else if req.head.ty = S.types.archInfo then []
  else if req.head.ty = S.types.computerName then
    [(S.computerName,req.computerName.hostname),(S.computerName,req.computerName.sysDisplayName),
      (S.computerName,req.computerName.sysLabel)]
  else []

/-- The run returns the planned value and leaves memory as the planned copies do. -/
def Follows {α : Type} (x : Run α) (y : Plan α) : Prop :=
  ∀ t, ∃ u, x t = .returned y.1 u ∧ u.mem = patch y.2 t.mem

namespace Follows

variable {α β : Type}

lemma pure (v : α) : Follows (Pure.pure v) (Pure.pure v) := fun t => ⟨t,rfl,rfl⟩

lemma bind {x : Run α} {y : Plan α} {f : α → Run β} {g : α → Plan β} (hx : Follows x y)
    (hf : Follows (f y.1) (g y.1)) : Follows (x >>= f) (y >>= g) := by
  intro t
  obtain ⟨s,hs,hmem⟩ := hx t
  obtain ⟨u,hu,hmem'⟩ := hf s
  refine ⟨u,by rw [Run.bind_apply,hs]; exact hu,?_⟩
  rw [hmem',hmem]
  exact (List.foldl_append).symm

end Follows

section Requests

variable {S : System} {E : Effects Run} {req : SysInfoRequest}

/-- The effects do as planned. -/
structure Performs (E : Effects Run) (cs : List StrCopy) : Prop where
  store : ∀ f, Follows (E.store f) (planned.store f)
  fill : ∀ f k st, (st,k) ∈ cs → Follows (E.fillStr f k st) (planned.fillStr f k st)

lemma answerOsVersion_follows (h : Performs E [(S.osElabName,req.osVersion.osvendorName)]) :
    Follows (answerOsVersion S E req) (answerOsVersion S planned req) := by
  refine .bind (h.store _) (.bind (h.fill _ _ _ (by simp [SysInfoRequest.cleared])) ?_)
  dsimp only
  cases (planned.fillStr .osvendorLen req.cleared.osVersion.osvendorName S.osElabName).1.1 with
  | error e => exact .pure _
  | ok v => exact .bind (h.store _) (.bind (h.store _) (.pure _))

lemma answerKernelVendor_follows (h : Performs E [(S.kvendorName,req.kernelVendor.kvendorName)]) :
    Follows (answerKernelVendor S E req) (answerKernelVendor S planned req) := by
  refine .bind (h.store _) (.bind (h.fill _ _ _ (by simp [SysInfoRequest.cleared])) ?_)
  dsimp only
  cases (planned.fillStr .kvendorLen req.cleared.kernelVendor.kvendorName S.kvendorName).1.1 with
  | error e => exact .pure _
  | ok v => exact .bind (h.store _) (.bind (h.store _) (.bind (h.store _) (.pure _)))

lemma answerArchInfo_follows (h : Performs E []) :
    Follows (answerArchInfo S E req) (answerArchInfo S planned req) :=
  .bind (h.store _) (.bind (h.store _) (.bind (h.store _) (.pure _)))

lemma answerComputerName_follows
    (h : Performs E [(S.computerName,req.computerName.hostname),
      (S.computerName,req.computerName.sysDisplayName),
      (S.computerName,req.computerName.sysLabel)]) :
    Follows (answerComputerName S E req) (answerComputerName S planned req) := by
  refine .bind (h.store _) (.bind (h.store _) (.bind (h.fill _ _ _ ?_) (.bind (h.fill _ _ _ ?_)
    (.bind (h.fill _ _ _ ?_) (.pure _)))))
  all_goals simp [SysInfoRequest.cleared]

lemma answerSubsystem_follows (h : Performs E []) (subsys : BitVec 16 × SubsysInfo) :
    Follows (answerSubsystem E req subsys) (answerSubsystem planned req subsys) :=
  .bind (h.store _) (.bind (h.store _) (.bind (h.store _) (.pure _)))

/-- Effects that do as planned on the strings of a request make it do as planned. -/
lemma processRequest_follows (h : Performs E (S.strings req)) :
    Follows (processRequest S E req) (S.plan req) := by
  unfold System.plan processRequest
  cases validateOptionHead req.head 0x0001#16 with
  | error e => exact .pure _
  | ok v =>
    dsimp only
    unfold System.strings at h
    split_ifs at h ⊢
    all_goals try exact .pure _
    · exact answerOsVersion_follows h
    · exact answerKernelVendor_follows h
    · exact answerArchInfo_follows h
    · exact answerComputerName_follows h
    · cases S.subsystem req.head.ty with
      | none => exact .pure _
      | some subsys => exact answerSubsystem_follows h subsys

lemma answerOsVersion_copies (S : System) (req : SysInfoRequest) :
    (answerOsVersion S planned req : Plan _).2 =
      made [(S.osElabName,req.osVersion.osvendorName)] := by
  rw [← planned_copies .osvendorLen]
  refine (List.nil_append _).trans (Eq.trans ?_ (List.append_nil _))
  refine congrArg (_++·) ?_
  dsimp only
  cases (planned.fillStr .osvendorLen req.cleared.osVersion.osvendorName S.osElabName).1.1 <;> rfl

lemma answerKernelVendor_copies (S : System) (req : SysInfoRequest) :
    (answerKernelVendor S planned req : Plan _).2 =
      made [(S.kvendorName,req.kernelVendor.kvendorName)] := by
  rw [← planned_copies .kvendorLen]
  refine (List.nil_append _).trans (Eq.trans ?_ (List.append_nil _))
  refine congrArg (_++·) ?_
  dsimp only
  cases (planned.fillStr .kvendorLen req.cleared.kernelVendor.kvendorName S.kvendorName).1.1 <;> rfl

lemma answerComputerName_copies (S : System) (req : SysInfoRequest) :
    (answerComputerName S planned req : Plan _).2 =
      made [(S.computerName,req.computerName.hostname),
        (S.computerName,req.computerName.sysDisplayName),
        (S.computerName,req.computerName.sysLabel)] := by
  have hmade : ∀ c d e : StrCopy, made [c,d,e] = made [c]++(made [d]++(made [e]++[])) := by
    intro c d e
    rw [List.append_nil,made,made,made,made,← List.filter_append,← List.filter_append]
    rfl
  rw [hmade,← planned_copies .hostnameLen,← planned_copies .sysDisplayNameLen,
    ← planned_copies .sysLabelLen]
  rfl

/-- A plan copies the strings of its request that can be, or nothing. -/
lemma plan_copies (S : System) (req : SysInfoRequest) :
    (S.plan req).2 = [] ∨ (S.plan req).2 = made (S.strings req) := by
  unfold System.plan processRequest
  cases validateOptionHead req.head 0x0001#16 with
  | error e => exact .inl rfl
  | ok v =>
    dsimp only
    unfold System.strings
    split_ifs
    all_goals try exact .inl rfl
    · exact .inr (answerOsVersion_copies S req)
    · exact .inr (answerKernelVendor_copies S req)
    · exact .inr (answerComputerName_copies S req)
    · cases S.subsystem req.head.ty <;> exact .inl rfl

/-- The copies of a string to these. -/
def Str.copiesTo (st : Str) (ss : List KStrPtr) : List StrCopy := ss.map fun s => (st,s)

/-- The strings of a computer name. -/
def ComputerName.strings (c : ComputerName) : List KStrPtr :=
  [c.hostname,c.sysDisplayName,c.sysLabel]

lemma types_ne (S : System) : S.types.computerName ≠ S.types.osver ∧
    S.types.computerName ≠ S.types.kvendor ∧ S.types.computerName ≠ S.types.archInfo := by
  have hne := S.types.distinct
  simp only [List.nodup_cons,List.mem_cons,not_or,List.not_mem_nil,or_false] at hne
  exact ⟨fun h => hne.1.2.2 h.symm,fun h => hne.2.1.2 h.symm,fun h => hne.2.2.1 h.symm⟩

lemma strings_computerName (hty : req.head.ty = S.types.computerName) :
    S.strings req = S.computerName.copiesTo req.computerName.strings := by
  obtain ⟨h₁,h₂,h₃⟩ := types_ne S
  simp only [System.strings,hty,h₁,h₂,h₃,if_false,if_true]
  rfl

/-- The plan of a computer-name request: every string that can be is copied and has its length set. -/
lemma plan_computerName (ha : Accepted req) (hty : req.head.ty = S.types.computerName) :
    (S.plan req).2 = made (S.strings req) ∧
      (S.plan req).1.2.computerName.strings = req.computerName.strings.map fun s =>
        if StrCopy.refused (S.computerName,s) then s else ⟨s.strPtr,S.computerName.len⟩ := by
  obtain ⟨h₁,h₂,h₃⟩ := types_ne S
  have hplan : S.plan req = answerComputerName S planned req := by
    unfold System.plan processRequest
    simp only [ha.valid,ha.heeded,ne_eq,not_true_eq_false,if_false,h₁,h₂,h₃,hty,if_true]
  rw [hplan,answerComputerName_copies,strings_computerName hty]
  refine ⟨rfl,?_⟩
  change [(planned.fillStr .hostnameLen req.computerName.hostname S.computerName).1.2,
    (planned.fillStr .sysDisplayNameLen req.computerName.sysDisplayName S.computerName).1.2,
    (planned.fillStr .sysLabelLen req.computerName.sysLabel S.computerName).1.2] = _
  rw [planned_length,planned_length,planned_length]
  rfl

end Requests

section Copies

variable {H : Host} {p : Perms 64} {c : StrCopy}

/-- The string may be read and the buffer written, and both end before the address space does. -/
structure Copyable (p : Perms 64) (c : StrCopy) : Prop where
  source : p.Allows .read c.1.ptr c.1.len.toNat
  buffer : p.Allows .write c.2.strPtr c.2.len.toNat
  source_lt : c.1.ptr.toNat+c.1.len.toNat < 2^64
  buffer_lt : c.2.strPtr.toNat+c.2.len.toNat < 2^64

lemma copyLen_le (k : KStrPtr) (st : Str) :
    (Host.copyLen k st).toNat ≤ k.len.toNat ∧ (Host.copyLen k st).toNat ≤ st.len.toNat := by
  unfold Host.copyLen
  by_cases h : k.len ≤ st.len
  · rw [if_pos h]
    exact ⟨le_rfl,h⟩
  · rw [if_neg h]
    exact ⟨(BitVec.not_le.mp h).le,le_rfl⟩

lemma moved_le (c : StrCopy) : c.moved ≤ c.2.len.toNat ∧ c.moved ≤ c.1.len.toNat := by
  have hcov := covered_le (Host.copyLen c.2 c.1).toNat
  obtain ⟨hk,hst⟩ := copyLen_le c.2 c.1
  exact ⟨hcov.trans hk,hcov.trans hst⟩

lemma mem_span_add {r : Span 64} {i : ℕ} (h : i < r.len.toNat) : r.addr+BitVec.ofNat 64 i ∈ r := by
  have hlt := r.len.isLt
  rw [Span.mem_iff,add_sub_cancel_left r.addr,BitVec.toNat_ofNat,Nat.mod_eq_of_lt (by omega)]
  exact h

lemma KStrPtr.mem_span {s : KStrPtr} {i : ℕ} (h : i < s.len.toNat) :
    s.strPtr+BitVec.ofNat 64 i ∈ s.span := mem_span_add (r := s.span) h

/-- An address that the overlap test finds in a range is in it. -/
lemma sub_lt_of_inRange {a n b : Word} (h : inRange a n b = true) : (b-a).toNat < n.toNat := by
  simp only [inRange,Bool.and_eq_true,decide_eq_true_eq,BitVec.le_def,BitVec.lt_def] at h
  obtain ⟨hle,hlt⟩ := h
  rw [BitVec.toNat_add] at hlt
  have hmod := Nat.mod_le (a.toNat+n.toNat) (2^64)
  rw [BitVec.toNat_sub_of_le hle]
  omega

/-- A buffer with no byte of the string in it passes the overlap test. -/
lemma not_refused_of_apart (h : ∀ x ∈ c.2.span, x ∉ c.1.span) : c.refused = false := by
  obtain ⟨hk,hst⟩ := copyLen_le c.2 c.1
  have hfirst : ∀ r : Span 64, 0 < r.len.toNat → r.addr ∈ r := by
    intro r hr
    rw [Span.mem_iff,sub_self]
    exact hr
  refine Bool.or_eq_false_iff.mpr ⟨Bool.eq_false_iff.mpr fun hin => ?_,
    Bool.eq_false_iff.mpr fun hin => ?_⟩
  · have hlt := sub_lt_of_inRange hin
    exact h c.2.strPtr (hfirst c.2.span (by change 0 < c.2.len.toNat; omega))
      (Span.mem_iff.mpr (hlt.trans_le hst))
  · have hlt := sub_lt_of_inRange hin
    exact h c.1.ptr (Span.mem_iff.mpr (hlt.trans_le hk))
      (hfirst c.1.span (by change 0 < c.1.len.toNat; omega))

lemma not_inRange {a n b : Word} (hlt : a.toNat+n.toNat < 2^64) (h : inRange a n b = false) :
    b.toNat < a.toNat ∨ a.toNat+n.toNat ≤ b.toNat := by
  by_contra hin
  rw [not_or] at hin
  have hend : (a+n).toNat = a.toNat+n.toNat := by
    rw [BitVec.toNat_add]
    exact Nat.mod_eq_of_lt hlt
  rw [inRange,Bool.and_eq_false_iff,decide_eq_false_iff_not,decide_eq_false_iff_not,BitVec.le_def,
    BitVec.lt_def,hend] at h
  omega

/-- What passes the overlap test does not overlap. -/
lemma Copyable.disjoint (h : Copyable p c) (hno : c.refused = false) :
    (⟨c.2.strPtr,c.1.ptr,Host.copyLen c.2 c.1⟩ : Regs).Disjoint (Host.copyLen c.2 c.1).toNat := by
  obtain ⟨hk,hst⟩ := copyLen_le c.2 c.1
  have hsource := h.source_lt
  have hbuffer := h.buffer_lt
  obtain ⟨hno₁,hno₂⟩ := Bool.or_eq_false_iff.mp hno
  have hsides := not_inRange (by omega) hno₁
  have hsides' := not_inRange (by omega) hno₂
  intro i hi j hj heq
  change c.1.ptr+BitVec.ofNat 64 i = c.2.strPtr+BitVec.ofNat 64 j at heq
  have hnat := congrArg BitVec.toNat heq
  rw [add_ofNat_toNat (by omega),add_ofNat_toNat (by omega)] at hnat
  omega

/-- A string that may be copied is, unless the buffer overlaps it. -/
lemma fillStr_follows {writable : Field → Bool} {f : Field} (hw : writable f = true)
    (h : Copyable H.perms c) :
    Follows (H.fillStr writable f c.2 c.1) (planned.fillStr f c.2 c.1) := by
  intro t
  unfold planned Host.fillStr copyNonoverlappingChecked
  simp only [BitVec.mul_one]
  cases hno : c.refused with
  | true =>
    refine ⟨t,?_,rfl⟩
    cases hno₁ : inRange c.1.ptr (Host.copyLen c.2 c.1) c.2.strPtr with
    | true => rfl
    | false =>
      have hno₂ := (Bool.or_eq_true_iff.mp hno).resolve_left (by rw [hno₁]; decide)
      rw [hno₂]
      rfl
  | false =>
    obtain ⟨hno₁,hno₂⟩ := Bool.or_eq_false_iff.mp hno
    have hopen : (⟨c.2.strPtr,c.1.ptr,Host.copyLen c.2 c.1⟩ : Regs).Open H.perms c.moved :=
      ⟨Allows.mono h.source (moved_le c).2,Allows.mono h.buffer (moved_le c).1⟩
    have hcopy := memcpyExplicit_copies t.mem hopen ((h.disjoint hno).mono (covered_le _))
    rw [hno₁,hno₂]
    simp only [Bool.false_eq_true,if_false]
    rw [checkedMemcpyImpl_ok (t := { t with accAddr := Function.update t.accAddr H.err 0#64 }) hcopy]
    simp only [Outcome.andThen,Host.store,hw,if_true,lt_irrefl,if_false]
    exact ⟨_,rfl,rfl⟩

lemma apply_moved (m : Mem 64) {i : ℕ} (h : i < c.moved) :
    c.apply m (c.2.strPtr+BitVec.ofNat 64 i) = m (c.1.ptr+BitVec.ofNat 64 i) := by
  have hlt := h.trans_le ((moved_le c).1.trans c.2.len.isLt.le)
  rw [StrCopy.apply,Mem.copy,fill_ofNat m c.2.strPtr _ hlt,if_pos h]

lemma apply_unmoved (m : Mem 64) {i : ℕ} (hi : i < 2^64) (h : c.moved ≤ i) :
    c.apply m (c.2.strPtr+BitVec.ofNat 64 i) = m (c.2.strPtr+BitVec.ofNat 64 i) := by
  rw [StrCopy.apply,Mem.copy,fill_ofNat m c.2.strPtr _ hi,if_neg (not_lt.mpr h)]

/-- A copy leaves the bytes outside its buffer. -/
lemma apply_of_not_mem (m : Mem 64) {x : Word} (h : x ∉ c.2.span) : c.apply m x = m x :=
  if_neg fun hlt => h (Span.mem_iff.mpr (hlt.trans_le (moved_le c).1))

/-- Memories that agree on what a copy reads agree after it wherever they did. -/
lemma apply_eqOn {m m' : Mem 64} {A : Set Word} (h : Set.EqOn m m' A)
    (hreads : ∀ i < c.moved, c.1.ptr+BitVec.ofNat 64 i ∈ A) :
    Set.EqOn (c.apply m) (c.apply m') A := by
  intro x hx
  unfold StrCopy.apply Mem.copy Mem.fill
  by_cases hlt : (x-c.2.strPtr).toNat < c.moved
  · rw [if_pos hlt,if_pos hlt]
    exact h (hreads _ hlt)
  · rw [if_neg hlt,if_neg hlt]
    exact h hx

lemma patch_append (cs cs' : List StrCopy) (m : Mem 64) :
    patch (cs++cs') m = patch cs' (patch cs m) := List.foldl_append

lemma patch_of_not_mem {cs : List StrCopy} (m : Mem 64) {x : Word}
    (h : ∀ c ∈ cs, x ∉ c.2.span) : patch cs m x = m x := by
  induction cs generalizing m with
  | nil => rfl
  | cons c cs ih =>
    rw [List.forall_mem_cons] at h
    exact (ih (c.apply m) h.2).trans (apply_of_not_mem m h.1)

lemma patch_eqOn {cs : List StrCopy} {m m' : Mem 64} {A : Set Word} (h : Set.EqOn m m' A)
    (hreads : ∀ c ∈ cs, ∀ i < c.moved, c.1.ptr+BitVec.ofNat 64 i ∈ A) :
    Set.EqOn (patch cs m) (patch cs m') A := by
  induction cs generalizing m m' with
  | nil => exact h
  | cons c cs ih =>
    rw [List.forall_mem_cons] at hreads
    exact ih (apply_eqOn h hreads.1) hreads.2

/-- A byte that is copied, and not changed afterwards. -/
lemma patch_moved {cs cs' : List StrCopy} (m : Mem 64) {i : ℕ} (h : i < c.moved)
    (hrest : ∀ d ∈ cs', c.2.strPtr+BitVec.ofNat 64 i ∉ d.2.span) :
    patch (cs++c::cs') m (c.2.strPtr+BitVec.ofNat 64 i) =
      patch cs m (c.1.ptr+BitVec.ofNat 64 i) := by
  rw [patch_append]
  exact (patch_of_not_mem _ hrest).trans (apply_moved _ h)

end Copies

section Loop

variable {H : Host} {base : Word} {n i j : ℕ} {it : RawCheckedSliceIter}

/-- The first error of a list of results. -/
def firstFailure : List Result → Result
  | [] => .ok ()
  | .ok _::rs => firstFailure rs
  | .error e::_ => .error e

lemma andResult_firstFailure (res r : Result) (rs : List Result) :
    andResult (andResult res r) (firstFailure rs) = andResult res (firstFailure (r::rs)) := by
  cases res <;> cases r <;> rfl

/-- The request at `a` passes its probe, may be stored to, and its strings may be copied. -/
structure Ready (H : Host) (a : Word) (req : SysInfoRequest) : Prop where
  probe : H.probe a = .ok ()
  writable : H.writable a = fun _ => true
  strings : ∀ c ∈ H.system.strings req, Copyable H.perms c

lemma Ready.process {a : Word} {req : SysInfoRequest} (h : Ready H a req) :
    Follows (H.process (H.writable a) req) (H.system.plan req) := by
  rw [h.writable]
  refine processRequest_follows ⟨fun f t => ⟨t,rfl,rfl⟩,fun f k st hc => ?_⟩
  exact fillStr_follows (c := (st,k)) rfl (h.strings _ hc)

/-- The plan of element `k`. -/
def planAt (H : Host) (base : Word) (reqs : Word → SysInfoRequest) (k : ℕ) :
    Plan (Result × SysInfoRequest) :=
  H.system.plan (reqs (strideAt base H.layout.size k))

/-- What the loop leaves when every request is ready. -/
structure Answered (H : Host) (base : Word) (i d : ℕ) (res : Result)
    (reqs : Word → SysInfoRequest) (t : Thread) (res' : Result) (g' : Guest) (u : Thread) :
    Prop where
  result : res' = andResult res (firstFailure ((List.range' i d).map fun k =>
    (planAt H base reqs k).1.1))
  each : ∀ k, i ≤ k → k < i+d →
    g'.reqs (strideAt base H.layout.size k) = (planAt H base reqs k).1.2
  others : ∀ a, (∀ k, i ≤ k → k < i+d → a ≠ strideAt base H.layout.size k) → g'.reqs a = reqs a
  mem : u.mem = patch ((List.range' i d).flatMap fun k => (planAt H base reqs k).2) t.mem

/-- One request answered before the others. -/
lemma Answered.cons {d : ℕ} {res res' : Result} {reqs : Word → SysInfoRequest} {g' : Guest}
    {t s u : Thread} (hper : i+d < period H.layout.size)
    (hs : s.mem = patch (planAt H base reqs i).2 t.mem)
    (h : Answered H base (i+1) d (andResult res (planAt H base reqs i).1.1)
      (Function.update reqs (strideAt base H.layout.size i) (planAt H base reqs i).1.2) s res' g'
      u) : Answered H base i (d+1) res reqs t res' g' u := by
  have hkeep : ∀ k ∈ List.range' (i+1) d, planAt H base (Function.update reqs
      (strideAt base H.layout.size i) (planAt H base reqs i).1.2) k = planAt H base reqs k := by
    intro k hk
    have hbounds := List.mem_range'_1.mp hk
    unfold planAt
    congr 1
    refine Function.update_of_ne ?_ _ _
    rw [ne_eq,strideAt_inj (by omega) (by omega)]
    omega
  refine ⟨?_,fun k hk hk' => ?_,fun a ha => ?_,?_⟩
  · rw [h.result,List.range'_succ,List.map_cons,← andResult_firstFailure]
    congr 2
    exact List.map_congr_left fun k hk => by rw [hkeep k hk]
  · by_cases hki : k = i
    · subst hki
      rw [h.others _ fun l hl hl' => ?_,Function.update_self]
      rw [ne_eq,strideAt_inj (by omega) (by omega)]
      omega
    · rw [h.each k (by omega) (by omega),hkeep k (List.mem_range'_1.mpr ⟨by omega,by omega⟩)]
  · rw [h.others a fun l hl hl' => ha l (by omega) (by omega),
      Function.update_of_ne (ha i le_rfl (by omega))]
  · rw [h.mem,hs,List.range'_succ,List.flatMap_cons,patch_append]
    congr 1
    rw [List.flatMap_def,List.flatMap_def]
    congr 1
    exact List.map_congr_left fun k hk => by rw [hkeep k hk]

lemma requestLoop_answers (m : ℕ) (res : Result) (g : Guest) (t : Thread)
    (h : Cursor H.layout.size base n it i j)
    (hready : ∀ k, i ≤ k → k < j →
      Ready H (strideAt base H.layout.size k) (g.reqs (strideAt base H.layout.size k))) :
    ∃ res' g' u, requestLoop H H.writable (j-i+m+1) it res g t = some (.returned (res',g') u) ∧
      Answered H base i (j-i) res g.reqs t res' g' u := by
  induction hd : j-i generalizing it i res g t with
  | zero =>
    have hle := h.le
    obtain rfl : i = j := by omega
    refine ⟨res,g,t,requestLoop_done (0+m) h,?_,fun k hk hk' => by omega,fun a _ => rfl,rfl⟩
    cases res <;> rfl
  | succ d ih =>
    have hij : i < j := by omega
    have hhi := h.hi
    have hlt := h.lt
    have hnow := hready i le_rfl hij
    rw [← h.pos] at hnow
    obtain ⟨s,hs,hmem⟩ := hnow.process t
    obtain ⟨res',g',u,hrun,hans⟩ := ih (andResult res (H.system.plan (g.reqs it.pos)).1.1)
      ⟨Function.update g.reqs it.pos (H.system.plan (g.reqs it.pos)).1.2,g.processed++[it.pos]⟩ s
      (h.advance_one hij) (fun k hk hkj => by
        dsimp only
        rw [Function.update_of_ne]
        · exact hready k (by omega) hkj
        · rw [h.pos,ne_eq,strideAt_inj (by omega) (by omega)]
          omega) (by omega)
    refine ⟨res',g',u,?_,?_⟩
    · rw [Nat.succ_add d m,requestLoop_step (d+m+1) h hij hnow.probe hs]
      exact hrun
    · dsimp only at hans
      rw [h.pos] at hans hmem
      exact hans.cons (by omega) hmem

/-- `GetSystemInfo` on requests that are all ready. -/
lemma getSystemInfo_answers {slice : KSlice} {reqs : Word → SysInfoRequest} (t : Thread) {d : ℕ}
    (hd : elements H.layout.size slice = d)
    (hready : ∀ k < d, Ready H (strideAt slice.arrPtr H.layout.size k)
      (reqs (strideAt slice.arrPtr H.layout.size k))) :
    ∃ res g u, getSystemInfo H H.writable slice reqs t = some (.returned (res,g) u) ∧
      Answered H slice.arrPtr 0 d (.ok ()) reqs t res g u := by
  obtain ⟨m,hm⟩ := fuel_eq H.layout.size slice
  have hcursor := fromKslice_cursor .exclusive H.layout.size slice
  rw [hd] at hm hcursor
  obtain ⟨res,g,u,hrun,hans⟩ := requestLoop_answers m (.ok ()) ⟨reqs,[]⟩ t hcursor
    fun k _ hk => hready k hk
  exact ⟨res,g,u,by rw [getSystemInfo,hm]; exact hrun,hans⟩

end Loop

/-- No byte is in both buffers. -/
def Apart (c d : StrCopy) : Prop := ∀ x ∈ c.2.span, x ∉ d.2.span

instance : Std.Symm Apart := ⟨fun _ _ h x hd hc => h x hc hd⟩

section Portions

/-- The buffers of `n` requests are apart from each other, and a request copies to its own. -/
structure Portioned (strings copies : ℕ → List StrCopy) (n : ℕ) : Prop where
  sublist : ∀ k, (copies k).Sublist (strings k)
  within : ∀ k < n, (strings k).Pairwise Apart
  between : ∀ k < n, ∀ l < n, k ≠ l → ∀ c ∈ strings k, ∀ d ∈ strings l, Apart c d

/-- No request changes a byte that a later one copies. -/
def Undisturbed (copies : ℕ → List StrCopy) (n : ℕ) (m : Mem 64) : Prop :=
  ∀ k l, k < l → l < n → ∀ d ∈ copies l, ∀ i < d.moved,
    patch (copies k) m (d.1.ptr+BitVec.ofNat 64 i) = m (d.1.ptr+BitVec.ofNat 64 i)

/-- The copies of the requests before `k`. -/
def copiesBefore (copies : ℕ → List StrCopy) (k : ℕ) : List StrCopy := (List.range k).flatMap copies

/-- The buffers of request `k` are left as by that request alone. -/
def LeftAlone (strings copies : ℕ → List StrCopy) (m : Mem 64) (k : ℕ) : Prop :=
  ∀ c ∈ strings k, ∀ x ∈ c.2.span,
    patch (copies k) (patch (copiesBefore copies k) m) x = patch (copies k) m x

lemma range_split {k n : ℕ} (hk : k < n) :
    List.range n = List.range k++k::List.range' (k+1) (n-(k+1)) := by
  have happ := List.range'_append_1 (s := 0) (m := k) (n := n-k)
  rw [Nat.zero_add,Nat.add_sub_cancel' hk.le] at happ
  rw [List.range_eq_range',← happ,List.range_eq_range',show n-k = n-(k+1)+1 by omega,
    List.range'_succ]

namespace Portioned

variable {strings copies : ℕ → List StrCopy} {n k l : ℕ} {m : Mem 64} {c : StrCopy} {x : Word}

lemma mem (h : Portioned strings copies n) (hc : c ∈ copies k) : c ∈ strings k :=
  (h.sublist k).subset hc

/-- Other requests do not copy to the buffers of request `k`. -/
lemma others (h : Portioned strings copies n) (hk : k < n) (hc : c ∈ strings k) (hx : x ∈ c.2.span)
    (ls : List ℕ) (hls : ∀ l ∈ ls, l < n ∧ k ≠ l) : ∀ d ∈ ls.flatMap copies, x ∉ d.2.span := by
  intro d hd
  obtain ⟨l,hl,hd⟩ := List.mem_flatMap.mp hd
  obtain ⟨hlt,hne⟩ := hls l hl
  exact h.between k hk l hlt hne c hc d (h.mem hd) x hx

/-- A buffer of request `k` is changed by the copies of that request only. -/
lemma patch_at (h : Portioned strings copies n) (hk : k < l) (hl : l ≤ n) (hc : c ∈ strings k)
    (hx : x ∈ c.2.span) (m : Mem 64) : patch (copiesBefore copies l) m x =
      patch (copies k) (patch (copiesBefore copies k) m) x := by
  rw [copiesBefore,range_split hk,List.flatMap_append,List.flatMap_cons,patch_append,patch_append]
  refine patch_of_not_mem _ (h.others (hk.trans_le hl) hc hx _ fun j hj => ?_)
  have hbounds := List.mem_range'_1.mp hj
  omega

/-- Requests whose copied bytes are not disturbed leave their buffers as they would alone. -/
lemma leftAlone (h : Portioned strings copies n) (hu : Undisturbed copies n m) (hk : k < n) :
    LeftAlone strings copies m k := by
  induction k using Nat.strong_induction_on with
  | h k ih =>
    intro c hc x hx
    -- the bytes that the requests before have left as they were
    refine patch_eqOn (A := {y | patch (copiesBefore copies k) m y = m y}) (fun y hy => hy)
      (fun d hd i hi => ?_) ?_
    · change patch (copiesBefore copies k) m _ = m _
      by_cases hmem : ∃ j < k, ∃ e ∈ copies j, d.1.ptr+BitVec.ofNat 64 i ∈ e.2.span
      · obtain ⟨j,hj,e,he,hy⟩ := hmem
        rw [h.patch_at hj hk.le (h.mem he) hy,ih j hj (hj.trans hk) e (h.mem he) _ hy]
        exact hu j k hj hk d hd i hi
      · refine patch_of_not_mem _ fun e he hy => hmem ?_
        obtain ⟨j,hj,he⟩ := List.mem_flatMap.mp he
        exact ⟨j,List.mem_range.mp hj,e,he,hy⟩
    · refine patch_of_not_mem _ (h.others hk hc hx _ fun l hl => ?_)
      have hlt := List.mem_range.mp hl
      omega

/-- A byte that an earlier request changes and a later one copies shows in the buffer of that one. -/
lemma undisturbed (h : Portioned strings copies n) (halone : ∀ k < n, LeftAlone strings copies m k) :
    Undisturbed copies n m := by
  intro k l hkl hl d hd i hi
  by_cases hmem : ∃ c ∈ copies k, d.1.ptr+BitVec.ofNat 64 i ∈ c.2.span
  · obtain ⟨c,hc,hy⟩ := hmem
    have hk := hkl.trans hl
    obtain ⟨before,after,hsplit⟩ := List.append_of_mem hd
    have hpairs := (h.within l hl).sublist (h.sublist l)
    rw [hsplit,List.pairwise_append,List.pairwise_cons] at hpairs
    have hx := KStrPtr.mem_span (hi.trans_le (moved_le d).1)
    have hrest : ∀ e ∈ after, d.2.strPtr+BitVec.ofNat 64 i ∉ e.2.span :=
      fun e he => hpairs.2.1.1 e he _ hx
    have hspared : ∀ e ∈ before, d.1.ptr+BitVec.ofNat 64 i ∉ e.2.span := by
      intro e he
      have hmem : e ∈ copies l := by
        rw [hsplit]
        exact List.mem_append_left _ he
      exact h.between k hk l hl hkl.ne c (h.mem hc) e (h.mem hmem) _ hy
    have heq := halone l hl d (h.mem hd) _ hx
    rw [hsplit,patch_moved _ hi hrest,patch_moved _ hi hrest,patch_of_not_mem _ hspared,
      patch_of_not_mem _ hspared,h.patch_at hkl hl.le (h.mem hc) hy,halone k hk c (h.mem hc) _ hy]
      at heq
    exact heq
  · exact patch_of_not_mem _ fun c hc hy => hmem ⟨c,hc,hy⟩

/-- After all requests, every buffer is as its request alone leaves it. -/
lemma alone_iff (h : Portioned strings copies n) :
    (∀ k < n, ∀ c ∈ strings k, ∀ x ∈ c.2.span,
      patch (copiesBefore copies n) m x = patch (copies k) m x) ↔ Undisturbed copies n m := by
  refine ⟨fun hall => h.undisturbed fun k hk c hc x hx => ?_,fun hu k hk c hc x hx => ?_⟩
  · rw [← h.patch_at hk le_rfl hc hx]
    exact hall k hk c hc x hx
  · rw [h.patch_at hk le_rfl hc hx]
    exact h.leftAlone hu hk c hc x hx

end Portioned

end Portions

section Names

variable {st : Str} {s : KStrPtr} {ss ss' strings : List KStrPtr} {m m' : Mem 64} {i : ℕ}

/-- The copy to `s` is whole, or the byte it leaves out is right already. -/
def Str.CopiedWhole (st : Str) (m : Mem 64) (s : KStrPtr) : Prop :=
  ¬ (st.len.toNat = 16 ∨ st.len.toNat%16 = 8) ∨
    m (s.strPtr+BitVec.ofNat 64 (st.len.toNat-1)) = m (st.ptr+BitVec.ofNat 64 (st.len.toNat-1))

/-- The strings have come to have the length of this one, and this one if they had room for it. -/
def Str.Fills (st : Str) (m m' : Mem 64) (strings strings' : List KStrPtr) : Prop :=
  strings' = strings.map (fun s => ⟨s.strPtr,st.len⟩) ∧
    ∀ s ∈ strings, st.len ≤ s.len → ∀ i < st.len.toNat,
      m' (s.strPtr+BitVec.ofNat 64 i) = m (st.ptr+BitVec.ofNat 64 i)

/-- A string that overlaps this one so that its copy is refused is this one already, and one with room
gets it whole, from bytes that the strings before it have left as they were. -/
def Str.Reaches (st : Str) (m : Mem 64) (strings : List KStrPtr) : Prop :=
  ∀ ss s ss', strings = ss++s::ss' →
    (StrCopy.refused (st,s) = true → s.len = st.len ∧
      ∀ i < s.len.toNat, m (s.strPtr+BitVec.ofNat 64 i) = m (st.ptr+BitVec.ofNat 64 i)) ∧
    (StrCopy.refused (st,s) = false → st.len ≤ s.len → st.CopiedWhole m s ∧
      ∀ i < covered st.len.toNat, patch (made (st.copiesTo ss)) m (st.ptr+BitVec.ofNat 64 i) =
        m (st.ptr+BitVec.ofNat 64 i))

lemma copyLen_of_le (h : st.len ≤ s.len) : Host.copyLen s st = st.len := by
  unfold Host.copyLen
  by_cases hle : s.len ≤ st.len
  · rw [if_pos hle]
    exact BitVec.le_antisymm hle h
  · rw [if_neg hle]

lemma copiedWhole_iff : st.CopiedWhole m s ↔ ∀ i < st.len.toNat, ¬ i < covered st.len.toNat →
    m (s.strPtr+BitVec.ofNat 64 i) = m (st.ptr+BitVec.ofNat 64 i) := by
  unfold Str.CopiedWhole covered
  split_ifs with hlen
  · constructor
    · intro hor i hi hlast
      obtain rfl : i = st.len.toNat-1 := by omega
      exact hor.resolve_left (not_not_intro hlen)
    · exact fun hall => .inr (hall _ (by omega) (lt_irrefl _))
  · exact iff_of_true (.inl hlen) fun i hi hlast => absurd hi hlast

lemma mem_copiesTo (h : s ∈ strings) : (st,s) ∈ st.copiesTo strings := List.mem_map.mpr ⟨s,h,rfl⟩

lemma mem_made {d : StrCopy} (h : d ∈ made (st.copiesTo ss)) :
    d.refused = false ∧ ∃ s ∈ ss, d = (st,s) := by
  obtain ⟨hmem,hno⟩ := List.mem_filter.mp h
  obtain ⟨s,hs,rfl⟩ := List.mem_map.mp hmem
  exact ⟨by simpa using hno,s,hs,rfl⟩

lemma made_split (hno : StrCopy.refused (st,s) = false) : made (st.copiesTo (ss++s::ss')) =
    made (st.copiesTo ss)++(st,s)::made (st.copiesTo ss') := by
  unfold Str.copiesTo made
  rw [List.map_append,List.map_cons,List.filter_append,List.filter_cons_of_pos (by rw [hno]; rfl)]

/-- A string that is not copied to keeps its bytes. -/
lemma patch_refused (hpairs : (st.copiesTo strings).Pairwise Apart) (hs : s ∈ strings)
    (hr : StrCopy.refused (st,s) = true) (m : Mem 64) (hi : i < s.len.toNat) :
    patch (made (st.copiesTo strings)) m (s.strPtr+BitVec.ofNat 64 i) =
      m (s.strPtr+BitVec.ofNat 64 i) := by
  refine patch_of_not_mem m fun d hd hxd => ?_
  have hne : d ≠ (st,s) := by
    rintro rfl
    rw [(mem_made hd).1] at hr
    cases hr
  exact hpairs.forall (List.mem_filter.mp hd).1 (mem_copiesTo hs) hne _ hxd
    (KStrPtr.mem_span hi)

/-- A string with room that is copied to. -/
lemma patch_copied (hpairs : (st.copiesTo (ss++s::ss')).Pairwise Apart)
    (hno : StrCopy.refused (st,s) = false) (hroom : st.len ≤ s.len) (m : Mem 64)
    (hi : i < st.len.toNat) :
    patch (made (st.copiesTo (ss++s::ss'))) m (s.strPtr+BitVec.ofNat 64 i) =
      if i < covered st.len.toNat then patch (made (st.copiesTo ss)) m (st.ptr+BitVec.ofNat 64 i)
      else m (s.strPtr+BitVec.ofNat 64 i) := by
  rw [Str.copiesTo,List.map_append,List.map_cons,List.pairwise_append,List.pairwise_cons] at hpairs
  obtain ⟨-,⟨hright,-⟩,hleft⟩ := hpairs
  have hx := KStrPtr.mem_span (hi.trans_le hroom)
  have hbefore : ∀ d ∈ made (st.copiesTo ss), s.strPtr+BitVec.ofNat 64 i ∉ d.2.span :=
    fun d hd hxd => hleft d (List.mem_filter.mp hd).1 _ List.mem_cons_self _ hxd hx
  have hafter : ∀ d ∈ made (st.copiesTo ss'), s.strPtr+BitVec.ofNat 64 i ∉ d.2.span :=
    fun d hd => hright d (List.mem_filter.mp hd).1 _ hx
  have hmoved : StrCopy.moved (st,s) = covered st.len.toNat :=
    congrArg (fun n : Word => covered n.toNat) (copyLen_of_le hroom)
  rw [made_split hno,← hmoved]
  split_ifs with hlt
  · exact patch_moved (c := (st,s)) m hlt hafter
  · rw [patch_append]
    refine (patch_of_not_mem _ hafter).trans (Eq.trans ?_ (patch_of_not_mem m hbefore))
    exact apply_unmoved (c := (st,s)) _ (hi.trans st.len.isLt) (not_lt.mp hlt)

lemma lengths_iff :
    (strings.map fun s => if StrCopy.refused (st,s) then s else ⟨s.strPtr,st.len⟩) =
        strings.map (fun s => ⟨s.strPtr,st.len⟩) ↔
      ∀ s ∈ strings, StrCopy.refused (st,s) = true → s.len = st.len := by
  rw [List.map_inj_left]
  refine forall₂_congr fun s _ => ?_
  obtain ⟨ptr,len⟩ := s
  cases StrCopy.refused (st,⟨ptr,len⟩) <;> simp

/-- The strings are filled by the copies exactly when it reaches them. -/
lemma fills_iff (hpairs : (st.copiesTo strings).Pairwise Apart)
    (hbytes : ∀ s ∈ strings, ∀ x ∈ s.span, m' x = patch (made (st.copiesTo strings)) m x) :
    st.Fills m m' strings
        (strings.map fun s => if StrCopy.refused (st,s) then s else ⟨s.strPtr,st.len⟩) ↔
      st.Reaches m strings := by
  rw [Str.Fills,lengths_iff]
  constructor
  · rintro ⟨hlens,hfilled⟩ ss s ss' rfl
    have hs : s ∈ ss++s::ss' := List.mem_append_right _ List.mem_cons_self
    refine ⟨fun hr => ⟨hlens s hs hr,fun i hi => ?_⟩,fun hno hroom => ?_⟩
    · have hlen := hlens s hs hr
      rw [← patch_refused hpairs hs hr m hi,← hbytes s hs _ (KStrPtr.mem_span hi)]
      exact hfilled s hs (BitVec.le_of_eq hlen.symm) i (by rw [← hlen]; exact hi)
    · have hcopy : ∀ i < st.len.toNat, _ := fun i hi =>
        (patch_copied hpairs hno hroom m hi).symm.trans
          ((hbytes s hs _ (KStrPtr.mem_span (hi.trans_le hroom))).symm.trans
            (hfilled s hs hroom i hi))
      refine ⟨copiedWhole_iff.mpr fun i hi hlast => ?_,fun i hi => ?_⟩
      · exact (if_neg hlast).symm.trans (hcopy i hi)
      · exact (if_pos hi).symm.trans (hcopy i (hi.trans_le (covered_le _)))
  · intro hreach
    refine ⟨fun s hs hr => ?_,fun s hs hroom i hi => ?_⟩
    · obtain ⟨ss,ss',hsplit⟩ := List.append_of_mem hs
      exact ((hreach ss s ss' hsplit).1 hr).1
    · obtain ⟨ss,ss',rfl⟩ := List.append_of_mem hs
      obtain ⟨hrefused,hcopied⟩ := hreach ss s ss' rfl
      have hlt := hi.trans_le hroom
      rw [hbytes s hs _ (KStrPtr.mem_span hlt)]
      cases hno : StrCopy.refused (st,s) with
      | true =>
        rw [patch_refused hpairs hs hno m hlt]
        exact (hrefused hno).2 i hlt
      | false =>
        obtain ⟨hwhole,hname⟩ := hcopied hno hroom
        rw [patch_copied hpairs hno hroom m hi]
        split_ifs with hcov
        · exact hname i hcov
        · exact copiedWhole_iff.mp hwhole i hi hcov

/-- Where no buffer is over the string, only the byte that a copy may leave out counts. -/
lemma reaches_iff (h : ∀ s ∈ strings, ∀ x ∈ s.span, x ∉ st.span) :
    st.Reaches m strings ↔ ∀ s ∈ strings, st.len ≤ s.len → st.CopiedWhole m s := by
  have hno : ∀ s ∈ strings, StrCopy.refused (st,s) = false := fun s hs =>
    not_refused_of_apart (h s hs)
  constructor
  · intro hreach s hs hroom
    obtain ⟨ss,ss',hsplit⟩ := List.append_of_mem hs
    exact ((hreach ss s ss' hsplit).2 (hno s hs) hroom).1
  · rintro hcopied ss s ss' rfl
    have hs : s ∈ ss++s::ss' := List.mem_append_right _ List.mem_cons_self
    refine ⟨fun hr => absurd ((hno s hs).symm.trans hr) Bool.false_ne_true,fun _ hroom =>
      ⟨hcopied s hs hroom,fun i hi => patch_of_not_mem _ fun d hd hy => ?_⟩⟩
    obtain ⟨-,s',hs',rfl⟩ := mem_made hd
    exact h s' (List.mem_append_left _ hs') _ hy
      (mem_span_add (r := st.span) (hi.trans_le (covered_le _)))

end Names

/-- The emulator's own strings. -/
def System.ownStrings (S : System) : List Str := [S.osElabName,S.kvendorName,S.computerName]

lemma strings_own {S : System} {req : SysInfoRequest} {c : StrCopy} (h : c ∈ S.strings req) :
    c.1 ∈ S.ownStrings := by
  unfold System.strings at h
  unfold System.ownStrings
  split_ifs at h
  all_goals simp at h
  · simp [h]
  · simp [h]
  · rcases h with h | h | h <;> simp [h]

/-- The request `k` of the slice. -/
def requestAt (H : Host) (slice : KSlice) (reqs : Word → SysInfoRequest) (k : ℕ) : SysInfoRequest :=
  reqs (strideAt slice.arrPtr H.layout.size k)

/-- The requests of the slice are accessible with their string buffers, and no two of the structures
and the buffers overlap. -/
structure Separate (H : Host) (slice : KSlice) (reqs : Word → SysInfoRequest) : Prop where
  size_ne : H.layout.size ≠ 0#64
  fits : slice.len.toNat*H.layout.size.toNat < 2^64
  probe : ∀ k < slice.len.toNat, H.probe (strideAt slice.arrPtr H.layout.size k) = .ok ()
  writable : ∀ k < slice.len.toNat,
    H.perms.Allows .write (strideAt slice.arrPtr H.layout.size k) H.layout.size.toNat
  strings : ∀ k < slice.len.toNat, ∀ c ∈ H.system.strings (requestAt H slice reqs k),
    Copyable H.perms c
  within : ∀ k < slice.len.toNat, (H.system.strings (requestAt H slice reqs k)).Pairwise Apart
  between : ∀ k < slice.len.toNat, ∀ l < slice.len.toNat, k ≠ l →
    ∀ c ∈ H.system.strings (requestAt H slice reqs k),
      ∀ d ∈ H.system.strings (requestAt H slice reqs l), Apart c d

/-- No buffer is over one of the emulator's own strings, such as the computer name, which is in memory
that the guest can write. -/
def OwnUntouched (H : Host) (slice : KSlice) (reqs : Word → SysInfoRequest) : Prop :=
  ∀ k < slice.len.toNat, ∀ c ∈ H.system.strings (requestAt H slice reqs k),
    ∀ st ∈ H.system.ownStrings, ∀ x ∈ c.2.span, x ∉ st.span

section Statement

variable (H : Host) (slice : KSlice) (reqs : Word → SysInfoRequest) (t : Thread)

/-- Each request and its buffers are left as by a call with that request only, and the result is the
first failure among those calls'. -/
def Independent (res : Result) (g : Guest) (u : Thread) : Prop :=
  ∃ rs : ℕ → Result, res = firstFailure ((List.range slice.len.toNat).map rs) ∧
    ∀ k < slice.len.toNat, ∃ g₁ u₁,
      getSystemInfo H H.writable ⟨strideAt slice.arrPtr H.layout.size k,1#64⟩ reqs t =
          some (.returned (rs k,g₁) u₁) ∧
        requestAt H slice g.reqs k = requestAt H slice g₁.reqs k ∧
        ∀ c ∈ H.system.strings (requestAt H slice reqs k), ∀ x ∈ c.2.span, u.mem x = u₁.mem x

/-- Request `k` is for the computer name. -/
def AsksName (k : ℕ) : Prop :=
  Accepted (requestAt H slice reqs k) ∧
    (requestAt H slice reqs k).head.ty = H.system.types.computerName

/-- The strings of request `k` that are for the computer name. -/
def nameStrings (k : ℕ) : List KStrPtr := (requestAt H slice reqs k).computerName.strings

/-- Every computer-name request has the length of the name in all three strings, and the name in those
that had room for it. -/
def NamesFilled (g : Guest) (u : Thread) : Prop :=
  ∀ k < slice.len.toNat, AsksName H slice reqs k → H.system.computerName.Fills t.mem u.mem
    (nameStrings H slice reqs k) (nameStrings H slice g.reqs k)

/-- The name reaches the strings of every computer-name request. -/
def NameReaches : Prop :=
  ∀ k < slice.len.toNat, AsksName H slice reqs k →
    H.system.computerName.Reaches t.mem (nameStrings H slice reqs k)

/-- Every string of a computer-name request with room for the name gets it whole. -/
def NameCopied : Prop :=
  ∀ k < slice.len.toNat, AsksName H slice reqs k → ∀ s ∈ nameStrings H slice reqs k,
    H.system.computerName.len ≤ s.len → H.system.computerName.CopiedWhole t.mem s

/-- The copies that request `k` makes. -/
def copiesAt (k : ℕ) : List StrCopy := (planAt H slice.arrPtr reqs k).2

end Statement

section Proof

variable {H : Host} {slice : KSlice} {reqs : Word → SysInfoRequest} {t : Thread} {k : ℕ}

lemma Separate.ready (h : Separate H slice reqs) (hk : k < slice.len.toNat) :
    Ready H (strideAt slice.arrPtr H.layout.size k) (requestAt H slice reqs k) :=
  ⟨h.probe k hk,writable_of_allows (h.writable k hk),h.strings k hk⟩

lemma copiesAt_sublist (k : ℕ) :
    (copiesAt H slice reqs k).Sublist (H.system.strings (requestAt H slice reqs k)) := by
  cases plan_copies H.system (requestAt H slice reqs k) with
  | inl hnil =>
    change copiesAt H slice reqs k = [] at hnil
    rw [hnil]
    exact List.nil_sublist _
  | inr hall =>
    change copiesAt H slice reqs k = _ at hall
    rw [hall]
    exact List.filter_sublist

lemma Separate.portioned (h : Separate H slice reqs) :
    Portioned (fun k => H.system.strings (requestAt H slice reqs k)) (copiesAt H slice reqs)
      slice.len.toNat := ⟨copiesAt_sublist,h.within,h.between⟩

/-- What separate requests come to. -/
lemma Separate.answered (h : Separate H slice reqs) (t : Thread) :
    ∃ res g u, getSystemInfo H H.writable slice reqs t = some (.returned (res,g) u) ∧
      Answered H slice.arrPtr 0 slice.len.toNat (.ok ()) reqs t res g u :=
  getSystemInfo_answers t (Nat.mod_eq_of_lt (lt_period h.size_ne h.fits)) fun _ hk => h.ready hk

/-- What request `k` alone comes to. -/
lemma Separate.alone (h : Separate H slice reqs) (t : Thread) (hk : k < slice.len.toNat) :
    ∃ g u, getSystemInfo H H.writable ⟨strideAt slice.arrPtr H.layout.size k,1#64⟩ reqs t =
        some (.returned ((planAt H slice.arrPtr reqs k).1.1,g) u) ∧
      requestAt H slice g.reqs k = (planAt H slice.arrPtr reqs k).1.2 ∧
      u.mem = patch (copiesAt H slice reqs k) t.mem := by
  have hfits : 1*H.layout.size.toNat < 2^64 := by
    rw [Nat.one_mul]
    exact H.layout.size.isLt
  have hone : elements H.layout.size ⟨strideAt slice.arrPtr H.layout.size k,1#64⟩ = 1 :=
    Nat.mod_eq_of_lt (lt_period h.size_ne hfits)
  have hzero := strideAt_zero (strideAt slice.arrPtr H.layout.size k) H.layout.size
  have hplan : planAt H (strideAt slice.arrPtr H.layout.size k) reqs 0 =
      planAt H slice.arrPtr reqs k := by rw [planAt,hzero]; rfl
  obtain ⟨res,g,u,hrun,hans⟩ := getSystemInfo_answers t hone fun l hl => by
    obtain rfl : l = 0 := by omega
    rw [hzero]
    exact h.ready hk
  have hres := hans.result
  have hreq := hans.each 0 le_rfl Nat.one_pos
  have hmem := hans.mem
  simp only [List.range'_one,List.map_singleton,List.flatMap_singleton,hplan,hzero] at hres hreq hmem
  refine ⟨g,u,?_,hreq,hmem⟩
  rw [hrun,hres]
  cases (planAt H slice.arrPtr reqs k).1.1 <;> rfl

section Outcome

variable {res : Result} {g : Guest} {u : Thread}

lemma Answered.mem_eq (hans : Answered H slice.arrPtr 0 slice.len.toNat (.ok ()) reqs t res g u) :
    u.mem = patch (copiesBefore (copiesAt H slice reqs) slice.len.toNat) t.mem := by
  rw [hans.mem,← List.range_eq_range']
  rfl

/-- Results and requests never depend on the other requests, so that only the buffers count. -/
lemma Separate.independent_iff (h : Separate H slice reqs)
    (hans : Answered H slice.arrPtr 0 slice.len.toNat (.ok ()) reqs t res g u) :
    Independent H slice reqs t res g u ↔
      Undisturbed (copiesAt H slice reqs) slice.len.toNat t.mem := by
  rw [← h.portioned.alone_iff,← hans.mem_eq]
  constructor
  · rintro ⟨rs,-,heach⟩ k hk c hc x hx
    obtain ⟨g₁,u₁,hrun,-,hbytes⟩ := heach k hk
    obtain ⟨g₂,u₂,hrun',-,hmem⟩ := h.alone t hk
    rw [hrun',Option.some.injEq,Outcome.returned.injEq] at hrun
    rw [← hmem,hrun.2]
    exact hbytes c hc x hx
  · intro hall
    refine ⟨fun k => (planAt H slice.arrPtr reqs k).1.1,?_,fun k hk => ?_⟩
    · rw [hans.result,List.range_eq_range']
      rfl
    · obtain ⟨g₁,u₁,hrun,hreq,hmem⟩ := h.alone t hk
      refine ⟨g₁,u₁,hrun,?_,fun c hc x hx => ?_⟩
      · rw [hreq]
        exact hans.each k (Nat.zero_le k) (by omega)
      · rw [hmem]
        exact hall k hk c hc x hx

lemma Separate.namesFilled_iff (h : Separate H slice reqs)
    (hu : Undisturbed (copiesAt H slice reqs) slice.len.toNat t.mem)
    (hans : Answered H slice.arrPtr 0 slice.len.toNat (.ok ()) reqs t res g u) :
    NamesFilled H slice reqs t g u ↔ NameReaches H slice reqs t := by
  refine forall_congr' fun k => forall_congr' fun hk => forall_congr' fun hasks => ?_
  obtain ⟨hcopies,hlens⟩ := plan_computerName hasks.1 hasks.2
  change copiesAt H slice reqs k = _ at hcopies
  have hstrings := strings_computerName hasks.2
  have hpairs := h.within k hk
  have heach := hans.each k (Nat.zero_le k) (by omega)
  change requestAt H slice g.reqs k = (H.system.plan (requestAt H slice reqs k)).1.2 at heach
  rw [hstrings] at hcopies hpairs
  rw [nameStrings,nameStrings,heach,hlens]
  refine fills_iff hpairs fun s hs x hx => ?_
  have hmem : (H.system.computerName,s) ∈ H.system.strings (requestAt H slice reqs k) := by
    rw [hstrings]
    exact mem_copiesTo hs
  rw [hans.mem_eq,h.portioned.alone_iff.mpr hu k hk _ hmem x hx,hcopies]

end Outcome

lemma OwnUntouched.undisturbed (h : OwnUntouched H slice reqs) :
    Undisturbed (copiesAt H slice reqs) slice.len.toNat t.mem := by
  intro k l hkl hl d hd i hi
  refine patch_of_not_mem _ fun c hc hy => ?_
  exact h k (hkl.trans hl) c ((copiesAt_sublist k).subset hc) _
    (strings_own ((copiesAt_sublist l).subset hd)) _ hy
    (mem_span_add (r := d.1.span) (hi.trans_le (moved_le d).2))

lemma OwnUntouched.nameReaches_iff (h : OwnUntouched H slice reqs) :
    NameReaches H slice reqs t ↔ NameCopied H slice reqs t := by
  refine forall_congr' fun k => forall_congr' fun hk => forall_congr' fun hasks => ?_
  refine reaches_iff fun s hs => ?_
  have hmem : (H.system.computerName,s) ∈ H.system.strings (requestAt H slice reqs k) := by
    rw [strings_computerName hasks.2]
    exact mem_copiesTo hs
  exact h k hk _ hmem _ (strings_own hmem)

/-- Requests that are apart from each other are independent and the names filled exactly when no request
changes a byte that a later one copies and the name reaches its strings. If no buffer is over one of the
emulator's own strings, that is when the copies of the name are whole. -/
theorem requests_independent_iff (H : Host) (slice : KSlice) (reqs : Word → SysInfoRequest)
    (t : Thread) (h : Separate H slice reqs) :
    ((∃ res g u, getSystemInfo H H.writable slice reqs t = some (.returned (res,g) u) ∧
        Independent H slice reqs t res g u ∧ NamesFilled H slice reqs t g u) ↔
      Undisturbed (copiesAt H slice reqs) slice.len.toNat t.mem ∧ NameReaches H slice reqs t) ∧
    (OwnUntouched H slice reqs →
      (Undisturbed (copiesAt H slice reqs) slice.len.toNat t.mem ∧ NameReaches H slice reqs t ↔ NameCopied H slice reqs t)) := by
  obtain ⟨res,g,u,hrun,hans⟩ := h.answered t
  refine ⟨⟨?_,fun hcond => ?_⟩,fun hown => ?_⟩
  · rintro ⟨res',g',u',hrun',hind,hfilled⟩
    rw [hrun,Option.some.injEq] at hrun'
    cases hrun'
    have hu := (h.independent_iff hans).mp hind
    exact ⟨hu,(h.namesFilled_iff hu hans).mp hfilled⟩
  · obtain ⟨hu,hreach⟩ := hcond
    exact ⟨res,g,u,hrun,(h.independent_iff hans).mpr hu,(h.namesFilled_iff hu hans).mpr hreach⟩
  · rw [and_iff_right hown.undisturbed]
    exact hown.nameReaches_iff

end Proof

section Sample

lemma not_mem_of_meets {r s : Span 64} (h : r.meets s = false) : ∀ x ∈ r, x ∉ s := by
  intro x hr hs
  have hmeets := Span.meets_iff.mpr ⟨x,hr,hs⟩
  rw [h] at hmeets
  cases hmeets

/-- Requests at 0x1000 on, with buffers that are found apart by looking at their ends. -/
lemma sample_separate {H : Host} (hperms : H.perms = fun _ _ => none) (hsize : H.layout.size = 128#64)
    {n : Word} (hn : n ≤ 2#64) (reqs : Word → SysInfoRequest)
    (hends : ∀ k < n.toNat, ∀ c ∈ H.system.strings (requestAt H ⟨0x1000#64,n⟩ reqs k),
      c.1.ptr.toNat+c.1.len.toNat < 2^64 ∧ c.2.strPtr.toNat+c.2.len.toNat < 2^64)
    (hwithin : ∀ k < n.toNat, (H.system.strings (requestAt H ⟨0x1000#64,n⟩ reqs k)).Pairwise
      fun c d => c.2.span.meets d.2.span = false)
    (hbetween : ∀ k < n.toNat, ∀ l < n.toNat, k ≠ l →
      ∀ c ∈ H.system.strings (requestAt H ⟨0x1000#64,n⟩ reqs k),
        ∀ d ∈ H.system.strings (requestAt H ⟨0x1000#64,n⟩ reqs l), c.2.span.meets d.2.span = false) :
    Separate H ⟨0x1000#64,n⟩ reqs where
  size_ne := by rw [hsize]; decide
  fits := by
    have hle : n.toNat ≤ 2 := hn
    rw [hsize]
    change n.toNat*128 < 2^64
    omega
  probe _ _ := by
    rw [Host.probe,hperms]
    exact elementProbe_open _ _ _
  writable _ _ _ _ := by rw [hperms]
  strings k hk c hc :=
    ⟨fun _ _ => by rw [hperms],fun _ _ => by rw [hperms],(hends k hk c hc).1,(hends k hk c hc).2⟩
  within k hk := (hwithin k hk).imp not_mem_of_meets
  between k hk l hl hne c hc d hd := not_mem_of_meets (hbetween k hk l hl hne c hc d hd)

/-- The sample with a computer name of five bytes. -/
def namedHost : Host :=
  { sampleHost with system := { sampleSystem with computerName := ⟨0x8020#64,5#64⟩ } }

/-- The version of the operating system, and the computer name with two strings that have room for it
and one that has not. -/
def versionAndName (a : Word) : SysInfoRequest :=
  if a = 0x1080#64 then
    { sampleRequest 4#128 1#32 ⟨0x6000#64,8#64⟩ with computerName.sysLabel := ⟨0x6010#64,3#64⟩ }
  else sampleRequest 1#128 1#32 ⟨0x5000#64,6#64⟩

theorem requests_independent_iff_two :
    Separate namedHost ⟨0x1000#64,2#64⟩ versionAndName ∧
      OwnUntouched namedHost ⟨0x1000#64,2#64⟩ versionAndName ∧
      AsksName namedHost ⟨0x1000#64,2#64⟩ versionAndName 1 ∧
      ∃ res g u, getSystemInfo namedHost namedHost.writable ⟨0x1000#64,2#64⟩ versionAndName
          calmThread = some (.returned (res,g) u) ∧
        Independent namedHost ⟨0x1000#64,2#64⟩ versionAndName calmThread res g u ∧
        NamesFilled namedHost ⟨0x1000#64,2#64⟩ versionAndName calmThread g u := by
  have hsep : Separate namedHost ⟨0x1000#64,2#64⟩ versionAndName :=
    sample_separate rfl rfl (by decide) _ (by decide) (by decide) (by decide)
  have hmeets : ∀ k < 2, ∀ c ∈ namedHost.system.strings
      (requestAt namedHost ⟨0x1000#64,2#64⟩ versionAndName k),
        ∀ st ∈ namedHost.system.ownStrings, c.2.span.meets st.span = false := by decide
  have hown : OwnUntouched namedHost ⟨0x1000#64,2#64⟩ versionAndName :=
    fun k hk c hc st hst => not_mem_of_meets (hmeets k hk c hc st hst)
  obtain ⟨hiff,hplain⟩ := requests_independent_iff namedHost _ _ calmThread hsep
  refine ⟨hsep,hown,⟨⟨by decide,by decide⟩,by decide⟩,hiff.mpr ((hplain hown).mpr ?_)⟩
  exact fun _ _ _ _ _ _ => .inl (by decide)

/-- The computer name into strings at `p`, eight bytes long. -/
def nameRequest (p _a : Word) : SysInfoRequest := sampleRequest 4#128 1#32 ⟨p,8#64⟩

/-- The bytes of the computer name are all 1, and the rest of memory is 0. -/
def namedThread : Thread :=
  { calmThread with mem := fun a => if 0x8020#64 ≤ a ∧ a < 0x8028#64 then 1#8 else 0#8 }

/-- The last byte of a name of eight bytes gets to none of the three strings, and success is reported.
A buffer over the name itself is refused, and its length is not set. -/
theorem name_left_short :
    (Separate sampleHost ⟨0x1000#64,1#64⟩ (nameRequest 0x5000#64) ∧
      ∃ g u, getSystemInfo sampleHost sampleHost.writable ⟨0x1000#64,1#64⟩
          (nameRequest 0x5000#64) namedThread =
            some (.returned (.ok (),g) u) ∧
        u.mem 0x5007#64 = 0#8 ∧
        ¬ NamesFilled sampleHost ⟨0x1000#64,1#64⟩
          (nameRequest 0x5000#64) namedThread g u) ∧
      Separate namedHost ⟨0x1000#64,1#64⟩ (nameRequest 0x8021#64) ∧
      ∃ g u, getSystemInfo namedHost namedHost.writable ⟨0x1000#64,1#64⟩
          (nameRequest 0x8021#64) namedThread =
            some (.returned (.error .invalidMemory,g) u) ∧
        (requestAt namedHost ⟨0x1000#64,1#64⟩ g.reqs 0).computerName.hostname.len = 8#64 ∧
        ¬ NamesFilled namedHost ⟨0x1000#64,1#64⟩
          (nameRequest 0x8021#64) namedThread g u := by
  refine ⟨⟨sample_separate rfl rfl (by decide) _ (by decide) (by decide) (by decide),_,_,rfl,rfl,
    fun h => ?_⟩,sample_separate rfl rfl (by decide) _ (by decide) (by decide) (by decide),_,_,rfl,
    rfl,fun h => ?_⟩
  · have hasks : AsksName sampleHost ⟨0x1000#64,1#64⟩
        (nameRequest 0x5000#64) 0 := ⟨⟨by decide,by decide⟩,rfl⟩
    have hbyte := (h 0 (by decide) hasks).2 ⟨0x5000#64,8#64⟩ (by decide) (by decide) 7 (by decide)
    exact absurd hbyte (by decide)
  · have hasks : AsksName namedHost ⟨0x1000#64,1#64⟩
        (nameRequest 0x8021#64) 0 := ⟨⟨by decide,by decide⟩,rfl⟩
    have hlen := congrArg (fun strings => strings.map KStrPtr.len) (h 0 (by decide) hasks).1
    exact absurd hlen (by decide)

end Sample

end WinterLily.Info
