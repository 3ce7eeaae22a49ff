import WinterLily.Info.Request

/-! `GetSystemInfo` of `wl-usi-base/src/info.rs`: the loop over the requests of a slice. What a request
does when nothing faults is its plan, the value it returns and the copies it makes; the run of a list
of requests that are apart from each other follows their plans one by one. -/
namespace WinterLily.Info
open WinterLily.Memory WinterLily.Access WinterLily.Stride WinterLily.Syscall
open WinterLily.Handles (LiliumError)

/-- The requests by their addresses, and which of them were processed. -/
structure Guest where
  reqs : Word → SysInfoRequest
  processed : List Word

section Loop

variable (H : Host) (writable : Word → Field → Bool)

/-- The `for` loop with the result so far; `none` if it is still running after `n` turns. -/
def requestLoop : ℕ → RawCheckedSliceIter → Result → Guest → Thread →
    Option (Outcome (Result × Guest))
  | 0,_,_,_,_ => none
  | n+1,it,res,g,t =>
    match it.next H.layout.size (elementProbe H.perms .read H.layout.size) with
    | (none,_) => some (.returned (res,g) t)
    | (some (.error _),_) => some (.returned (.error .invalidMemory,g) t)
    | (some (.ok a),it) =>
      match H.process (writable a) (g.reqs a) t with
      | .returned (r,req) t =>
        requestLoop n it (andResult res r) ⟨Function.update g.reqs a req,g.processed++[a]⟩ t
      | .killed sig => some (.killed sig)
      | .elsewhere buf => some (.elsewhere buf)
      | .stuck => some .stuck

/-- `GetSystemInfo`, whose loop ends within the length of the slice. -/
def getSystemInfo (slice : KSlice) (reqs : Word → SysInfoRequest) (t : Thread) :
    Option (Outcome (Result × Guest)) :=
  requestLoop H writable (slice.len.toNat+1) (iterMutChecked H.layout.size slice).raw (.ok ())
    ⟨reqs,[]⟩ t

end Loop

section Turns

variable {H : Host} {writable : Word → Field → Bool} {base : Word} {n i j : ℕ}
  {it : RawCheckedSliceIter} {res r : Result} {g g' : Guest} {t u : Thread}

/-- The probe of an element. -/
def Host.probe (H : Host) (a : Word) : Except CheckedAccessError Unit :=
  elementProbe H.perms .read H.layout.size a

lemma requestLoop_done (m : ℕ) (h : Cursor H.layout.size base n it i i) :
    requestLoop H writable (m+1) it res g t = some (.returned (res,g) t) := by
  rw [requestLoop,RawCheckedSliceIter.next,if_pos (h.pos_eq_stop.mpr rfl)]

/-- A turn at an element that its probe refuses. -/
lemma requestLoop_refused (m : ℕ) (h : Cursor H.layout.size base n it i j) (hij : i < j)
    {e : CheckedAccessError} (hp : H.probe it.pos = .error e) :
    requestLoop H writable (m+1) it res g t = some (.returned (.error .invalidMemory,g) t) := by
  unfold Host.probe at hp
  rw [requestLoop,RawCheckedSliceIter.next,if_neg (mt h.pos_eq_stop.mp hij.ne),hp]
  rfl

/-- A turn whose request returns. -/
lemma requestLoop_step (m : ℕ) (h : Cursor H.layout.size base n it i j) (hij : i < j)
    (hp : H.probe it.pos = .ok ()) {req : SysInfoRequest}
    (hreq : H.process (writable it.pos) (g.reqs it.pos) t = .returned (r,req) u) :
    requestLoop H writable (m+1) it res g t =
      requestLoop H writable m { it with pos := it.pos+H.layout.size } (andResult res r)
        ⟨Function.update g.reqs it.pos req,g.processed++[it.pos]⟩ u := by
  unfold Host.probe at hp
  rw [requestLoop,RawCheckedSliceIter.next,if_neg (mt h.pos_eq_stop.mp hij.ne),hp]
  simp only [Except.map,hreq]

/-- A turn whose request does not return ends the loop without a result. -/
lemma requestLoop_stops (m : ℕ) (res : Result) (h : Cursor H.layout.size base n it i j)
    (hij : i < j) (hp : H.probe it.pos = .ok ())
    (hreq : ∀ v u, H.process (writable it.pos) (g.reqs it.pos) t ≠ .returned v u) :
    ∃ o, requestLoop H writable (m+1) it res g t = some o ∧ ∀ v u, o ≠ .returned v u := by
  unfold Host.probe at hp
  rw [requestLoop,RawCheckedSliceIter.next,if_neg (mt h.pos_eq_stop.mp hij.ne),hp]
  simp only [Except.map]
  cases ho : H.process (writable it.pos) (g.reqs it.pos) t with
  | returned v u => exact absurd ho (hreq v u)
  | killed sig => exact ⟨_,rfl,by simp⟩
  | elsewhere buf => exact ⟨_,rfl,by simp⟩
  | stuck => exact ⟨_,rfl,by simp⟩

/-- The loop is over within as many turns as there are elements, and a success has processed all of
them in order. -/
lemma requestLoop_ends (writable : Word → Field → Bool) (m : ℕ) (res : Result) (g : Guest)
    (t : Thread) (h : Cursor H.layout.size base n it i j) :
    ∃ o, requestLoop H writable (j-i+m+1) it res g t = some o ∧
      ∀ g' u, o = .returned (.ok (),g') u →
        g'.processed = g.processed++(List.range' i (j-i)).map (strideAt base H.layout.size) := by
  induction hd : j-i generalizing it i res g t with
  | zero =>
    have hle := h.le
    obtain rfl : i = j := by omega
    refine ⟨_,requestLoop_done (0+m) h,fun g' u hg => ?_⟩
    cases hg
    simp
  | succ d ih =>
    have hij : i < j := by omega
    rw [Nat.succ_add d m]
    cases hp : H.probe it.pos with
    | error e => exact ⟨_,requestLoop_refused (d+m+1) h hij hp,by simp⟩
    | ok _ =>
      by_cases hret : ∃ v u, H.process (writable it.pos) (g.reqs it.pos) t = .returned v u
      · obtain ⟨⟨r,req⟩,u,hreq⟩ := hret
        obtain ⟨o,ho,hproc⟩ := ih (andResult res r)
          ⟨Function.update g.reqs it.pos req,g.processed++[it.pos]⟩ u (h.advance_one hij) (by omega)
        refine ⟨o,by rw [requestLoop_step (d+m+1) h hij hp hreq]; exact ho,fun g' u hg => ?_⟩
        rw [hproc g' u hg,List.range'_succ,List.map_cons,h.pos,List.append_assoc,
          List.singleton_append]
      · obtain ⟨o,ho,hno⟩ := requestLoop_stops (d+m+1) res h hij hp
          fun v u hreq => hret ⟨v,u,hreq⟩
        exact ⟨o,ho,fun g' u hg => absurd hg (hno _ _)⟩

/-- The turns that `getSystemInfo` allows are enough. -/
lemma fuel_eq (size : Word) (slice : KSlice) :
    ∃ m, slice.len.toNat+1 = elements size slice-0+m+1 := by
  have hle : elements size slice ≤ slice.len.toNat := Nat.mod_le _ _
  exact ⟨slice.len.toNat-elements size slice,by omega⟩

/-- `GetSystemInfo` always ends, and with success only after the elements of the iterator. -/
lemma getSystemInfo_ends (H : Host) (writable : Word → Field → Bool) (slice : KSlice)
    (reqs : Word → SysInfoRequest) (t : Thread) :
    ∃ o, getSystemInfo H writable slice reqs t = some o ∧
      ∀ g' u, o = .returned (.ok (),g') u →
        g'.processed = (List.range (elements H.layout.size slice)).map
          (strideAt slice.arrPtr H.layout.size) := by
  obtain ⟨m,hm⟩ := fuel_eq H.layout.size slice
  obtain ⟨o,ho,hproc⟩ := requestLoop_ends writable m (.ok ()) ⟨reqs,[]⟩ t
    (fromKslice_cursor .exclusive H.layout.size slice)
  refine ⟨o,by rw [getSystemInfo,hm]; exact ho,fun g' u hg => ?_⟩
  rw [hproc g' u hg,List.nil_append,Nat.sub_zero,List.range_eq_range']

/-- A success has processed the requests of the slice exactly when the length is below the period of
their size. -/
theorem all_requests_processed_iff (H : Host) (slice : KSlice) (reqs : Word → SysInfoRequest)
    (t : Thread) (h : getSystemInfo H H.writable slice reqs t = some (.returned (.ok (),g) u)) :
    g.processed = (List.range slice.len.toNat).map (strideAt slice.arrPtr H.layout.size) ↔
      slice.len.toNat < 2^64/Nat.gcd (2^64) H.layout.size.toNat := by
  obtain ⟨o,ho,hproc⟩ := getSystemInfo_ends H H.writable slice reqs t
  rw [h,Option.some.injEq] at ho
  rw [hproc g u ho.symm]
  change _ ↔ slice.len.toNat < period H.layout.size
  constructor
  · intro heq
    have hlen := congrArg List.length heq
    rw [List.length_map,List.length_map,List.length_range,List.length_range] at hlen
    rw [← hlen]
    exact Nat.mod_lt _ (period_pos _)
  · intro hlt
    rw [elements,Nat.mod_eq_of_lt hlt]

end Turns

section Sample

/-- A request about the architecture, one for a registered subsystem and one to be ignored. -/
def threeRequests (a : Word) : SysInfoRequest :=
  sampleRequest (if a = 0x1000#64 then 3#128 else if a = 0x1080#64 then 9#128 else 10#128) 1#32
    ⟨0#64,0#64⟩

theorem all_requests_processed_iff_three :
    ∃ g u, getSystemInfo sampleHost sampleHost.writable ⟨0x1000#64,3#64⟩ threeRequests calmThread =
          some (.returned (.ok (),g) u) ∧
      g.processed = (List.range (3#64).toNat).map (strideAt 0x1000#64 128#64) := by
  have hrun : ∃ g u, getSystemInfo sampleHost sampleHost.writable ⟨0x1000#64,3#64⟩ threeRequests
      calmThread = some (.returned (.ok (),g) u) := ⟨_,_,rfl⟩
  obtain ⟨g,u,hrun⟩ := hrun
  exact ⟨g,u,hrun,(all_requests_processed_iff sampleHost _ _ _ hrun).mpr (by decide)⟩

/-- A slice that is a whole turn of the address space counts as empty. -/
theorem wrapped_slice_unprocessed :
    ∃ g u, getSystemInfo sampleHost sampleHost.writable ⟨0x1000#64,0x200000000000000#64⟩
        (fun _ => sampleRequest 3#128 1#32 ⟨0#64,0#64⟩) calmThread =
          some (.returned (.ok (),g) u) ∧
      g.processed = [] ∧
      g.processed ≠ (List.range (0x200000000000000#64).toNat).map (strideAt 0x1000#64 128#64) := by
  have hcursor := fromKslice_cursor .exclusive 128#64 ⟨0x1000#64,0x200000000000000#64⟩
  have hnone : elements 128#64 ⟨0x1000#64,0x200000000000000#64⟩ = 0 := by decide
  rw [hnone] at hcursor
  refine ⟨_,_,requestLoop_done (H := sampleHost) _ hcursor,rfl,fun h => ?_⟩
  have hlen := congrArg List.length h
  rw [List.length_map,List.length_range] at hlen
  cases hlen

end Sample

section Faults

variable {H : Host} {base : Word} {n i j : ℕ} {it : RawCheckedSliceIter}

/-- Everything `next` and `next_back` hand out for the slice may be read and written all over. -/
def ItemsWritable (p : Perms 64) (size : Word) (slice : KSlice) : Prop :=
  ∀ cs, ∀ a ∈ handedOut size (elementProbe p .read size) (iterMutChecked size slice) cs,
    p.Allows .read a size.toNat ∧ p.Allows .write a size.toNat

/-- No store to a request faults: it makes no difference whether the fields may be stored to. -/
def NeverFaults (H : Host) (slice : KSlice) : Prop :=
  ∀ reqs t, getSystemInfo H H.writable slice reqs t =
    getSystemInfo H (fun _ _ => true) slice reqs t

/-- The elements whose probed bytes are readable are readable and writable. -/
def ProbedWritable (p : Perms 64) (size : Word) (slice : KSlice) : Prop :=
  ∀ a, Element size slice.arrPtr (elements size slice) a →
    (∀ b ∈ probed size a 1#64, p .read b = none) →
      p.Allows .read a size.toNat ∧ p.Allows .write a size.toNat

lemma elementProbe_read_iff (p : Perms 64) (size a : Word) :
    elementProbe p .read size a = .ok () ↔ ∀ b ∈ probed size a 1#64, p .read b = none := by
  refine (probeChecked_touches p .read size a 1#64).ok_iff.trans (forall₂_congr fun b _ => ?_)
  simp [Granted]

lemma itemsWritable_iff (p : Perms 64) (size : Word) (slice : KSlice) :
    ItemsWritable p size slice ↔ ProbedWritable p size slice := by
  have hitems := exists_handedOut_iff (elementProbe p .read size) .exclusive size slice
  constructor
  · intro h a ha hread
    obtain ⟨cs,hcs⟩ := (hitems a).mpr ⟨ha,(elementProbe_read_iff p size a).mpr hread⟩
    exact h cs a hcs
  · intro h cs a ha
    obtain ⟨helem,hprobe⟩ := (hitems a).mp ⟨cs,ha⟩
    exact h a helem ((elementProbe_read_iff p size a).mp hprobe)

/-- The fields of a request that may be written. -/
lemma writable_of_allows {a : Word} (h : H.perms.Allows .write a H.layout.size.toNat) :
    H.writable a = fun _ => true := by
  funext f
  have hsplit : H.perms.Allows .write a (H.layout.offset f+H.layout.width f) :=
    Allows.mono h (H.layout.inside f)
  exact decide_eq_true (allows_add.mp hsplit).2

/-- Along the loop it makes no difference whether the fields may be stored to, if they may be for
every element that passes its probe. -/
lemma requestLoop_unfaulted (m : ℕ) (res : Result) (g : Guest) (t : Thread)
    (h : Cursor H.layout.size base n it i j)
    (hw : ∀ a, Element H.layout.size base n a → H.probe a = .ok () →
      H.writable a = fun _ => true) :
    requestLoop H H.writable m it res g t =
      requestLoop H (fun _ _ => true) m it res g t := by
  induction m generalizing it i res g t with
  | zero => rfl
  | succ m ih =>
    by_cases hij : i = j
    · subst hij
      rw [requestLoop_done m h,requestLoop_done m h]
    · have hlt : i < j := lt_of_le_of_ne h.le hij
      cases hp : H.probe it.pos with
      | error e => rw [requestLoop_refused m h hlt hp,requestLoop_refused m h hlt hp]
      | ok _ =>
        have hopen := hw it.pos ⟨i,hlt.trans_le h.hi,h.pos⟩ hp
        unfold Host.probe at hp
        rw [requestLoop,requestLoop,RawCheckedSliceIter.next,if_neg (mt h.pos_eq_stop.mp hij),hp]
        simp only [Except.map,hopen]
        cases H.process (fun _ => true) (g.reqs it.pos) t with
        | returned v u => exact ih _ _ _ (h.advance_one hlt)
        | killed sig => rfl
        | elsewhere buf => rfl
        | stuck => rfl

/-- Items may be written, and the stores to them never fault, exactly when no element of the slice
has its probed bytes readable and another byte that is not readable and writable. -/
theorem items_writable_iff (H : Host) (slice : KSlice) :
    ItemsWritable H.perms H.layout.size slice ∧ NeverFaults H slice ↔
      ProbedWritable H.perms H.layout.size slice := by
  rw [itemsWritable_iff]
  refine and_iff_left_of_imp fun h reqs t => ?_
  refine requestLoop_unfaulted _ _ _ _ (fromKslice_cursor .exclusive _ slice) fun a ha hp => ?_
  exact writable_of_allows (h a ha ((elementProbe_read_iff _ _ a).mp hp)).2

/-- Memory that may be read and not written. -/
def readOnly : Perms 64 := fun acc _ => if acc = .write then some .segv else none

/-- A read-only request is handed out for writing, and the first store to it kills the process. -/
theorem read_only_item_handed_out :
    PerPage readOnly ∧
      0x1000#64 ∈ handedOut 128#64 (elementProbe readOnly .read 128#64)
        (iterMutChecked 128#64 ⟨0x1000#64,1#64⟩) [.next (elementProbe readOnly .read 128#64)] ∧
      ¬ readOnly.Allows .write 0x1000#64 (128#64).toNat ∧
      getSystemInfo { sampleHost with perms := readOnly }
        ({ sampleHost with perms := readOnly } : Host).writable ⟨0x1000#64,1#64⟩
        (fun _ => sampleRequest 3#128 1#32 ⟨0#64,0#64⟩) calmThread = some (.killed Signals.sigquit) := by
  refine ⟨fun _ _ _ _ => rfl,?_,fun h => ?_,rfl⟩
  · decide
  · exact absurd (h 0 (by decide)) (by decide)

end Faults

end WinterLily.Info
