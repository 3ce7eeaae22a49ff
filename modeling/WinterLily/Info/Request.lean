import WinterLily.Access.IterMut
import WinterLily.Handles.Table
import WinterLily.Syscall.Registry

/-! `process_request` of `wl-usi-base/src/info.rs`, with `fill_str` and `validate_option_head`. It is
written once over the two effects that it has: a store to a field of the request, which may fault, and
`fill_str`. The request is the value behind the exclusive reference. It is a union; only the member
that its type selects is read or written, so the members are kept side by side. -/
namespace WinterLily.Info
open WinterLily.Memory WinterLily.Access WinterLily.Syscall
open WinterLily.Handles (LiliumError)

abbrev Word := BitVec 64
abbrev Uuid := BitVec 128

/-- The bytes beside the type and the flags are in `rest`. -/
structure ExtendedOptionHead where
  ty : Uuid
  flags : BitVec 32
  rest : List Byte
  deriving DecidableEq, Repr

def standardOptionMask : BitVec 32 := 0x0001#32

/-- `validate_option_head`. -/
def validateOptionHead (head : ExtendedOptionHead) (tbits : BitVec 16) : Except LiliumError Unit :=
  if head.rest.any (· ≠ 0#8) then .error .invalidOption
  else
    let flagsMask := standardOptionMask ||| tbits.setWidth 32 <<< 16
    if head.flags &&& ~~~flagsMask ≠ 0#32 then .error .invalidOption else .ok ()

structure KStrPtr where
  strPtr : Word
  len : Word
  deriving DecidableEq, Repr

/-- A string of the emulator's own. -/
structure Str where
  ptr : Word
  len : Word
  deriving DecidableEq, Repr

structure OsVersion where
  osvendorName : KStrPtr
  osMajor : BitVec 32
  osMinor : BitVec 32
  deriving DecidableEq, Repr

structure KernelVendor where
  kvendorName : KStrPtr
  buildId : Uuid
  kernelMajor : BitVec 32
  kernelMinor : BitVec 32
  deriving DecidableEq, Repr

structure ArchInfo where
  archType : Uuid
  archVersion : BitVec 32
  deriving DecidableEq, Repr

structure ComputerName where
  hostname : KStrPtr
  sysDisplayName : KStrPtr
  sysLabel : KStrPtr
  sysId : Uuid
  deriving DecidableEq, Repr

structure SupportedSubsystem where
  maxSysno : BitVec 16
  subsysVersion : BitVec 64
  subsystemNo : BitVec 16
  deriving DecidableEq, Repr

structure SysInfoRequest where
  head : ExtendedOptionHead
  osVersion : OsVersion
  kernelVendor : KernelVendor
  archInfo : ArchInfo
  computerName : ComputerName
  supported : SupportedSubsystem
  deriving DecidableEq, Repr

/-- The fields that are stored to. -/
inductive Field
  | flags
  | osvendorLen
  | osMajor
  | osMinor
  | kvendorLen
  | buildId
  | kernelMajor
  | kernelMinor
  | archType
  | archVersion
  | sysId
  | hostnameLen
  | sysDisplayNameLen
  | sysLabelLen
  | maxSysno
  | subsysVersion
  | subsystemNo
  deriving DecidableEq, Repr

/-- `SYSINFO_REQUEST_*`. -/
structure RequestTypes where
  osver : Uuid
  kvendor : Uuid
  archInfo : Uuid
  computerName : Uuid
  distinct : [osver,kvendor,archInfo,computerName].Nodup

structure SubsysInfo where
  uuid : Uuid
  subsysVersion : BitVec 64
  maxSysno : BitVec 16
  deriving DecidableEq, Repr

/-- What a request is answered from. -/
structure System where
  types : RequestTypes
  osElabName : Str
  kvendorName : Str
  computerName : Str
  computerId : Uuid
  version : Uuid
  versionMajor : BitVec 32
  versionMinor : BitVec 32
  archType : Uuid
  archVersion : BitVec 32
  registry : Registry Unit SubsysInfo

def osVersionMajor : BitVec 32 := 0#32
def osVersionMinor : BitVec 32 := 1#32

abbrev Result := Except LiliumError Unit

/-- `Result::and`. -/
def andResult : Result → Result → Result
  | .ok _,r => r
  | .error e,_ => .error e

/-- The effects of a request. -/
structure Effects (m : Type → Type) where
  store : Field → m Unit
  fillStr : Field → KStrPtr → Str → m (Result × KStrPtr)

section Program

variable {m : Type → Type} [Monad m] (S : System) (E : Effects m) (req : SysInfoRequest)

/-- The first store of every answer. -/
def SysInfoRequest.cleared : SysInfoRequest :=
  { req with head.flags := req.head.flags &&& ~~~0x0001#32 }

/-- What becomes of a request that is not answered. -/
def unanswered : Result × SysInfoRequest :=
  if req.head.flags &&& 0x0001#32 = 0#32 then (.error .invalidOption,req) else (.ok (),req)

def answerOsVersion : m (Result × SysInfoRequest) := do
  E.store .flags
  let req := req.cleared
  let filled ← E.fillStr .osvendorLen req.osVersion.osvendorName S.osElabName
  let req := { req with osVersion.osvendorName := filled.2 }
  match filled.1 with
  | .error e => return (.error e,req)
  | .ok _ =>
    E.store .osMajor
    E.store .osMinor
    return (.ok (),{ req with
      osVersion.osMajor := osVersionMajor, osVersion.osMinor := osVersionMinor })

def answerKernelVendor : m (Result × SysInfoRequest) := do
  E.store .flags
  let req := req.cleared
  let filled ← E.fillStr .kvendorLen req.kernelVendor.kvendorName S.kvendorName
  let req := { req with kernelVendor.kvendorName := filled.2 }
  match filled.1 with
  | .error e => return (.error e,req)
  | .ok _ =>
    E.store .buildId
    E.store .kernelMajor
    E.store .kernelMinor
    return (.ok (),{ req with
      kernelVendor.buildId := S.version, kernelVendor.kernelMajor := S.versionMajor,
      kernelVendor.kernelMinor := S.versionMinor })

def answerArchInfo : m (Result × SysInfoRequest) := do
  E.store .flags
  E.store .archType
  E.store .archVersion
  let req := req.cleared
  return (.ok (),{ req with
    archInfo.archType := S.archType, archInfo.archVersion := S.archVersion })

/-- All three strings are filled, and the last error is the one returned. -/
def answerComputerName : m (Result × SysInfoRequest) := do
  E.store .flags
  E.store .sysId
  let req := { req.cleared with computerName.sysId := S.computerId }
  let hostname ← E.fillStr .hostnameLen req.computerName.hostname S.computerName
  let display ← E.fillStr .sysDisplayNameLen req.computerName.sysDisplayName S.computerName
  let label ← E.fillStr .sysLabelLen req.computerName.sysLabel S.computerName
  return (andResult label.1 (andResult display.1 (andResult hostname.1 (.ok ()))),{ req with
    computerName.hostname := hostname.2, computerName.sysDisplayName := display.2,
    computerName.sysLabel := label.2 })

def answerSubsystem (subsys : BitVec 16 × SubsysInfo) : m (Result × SysInfoRequest) := do
  E.store .maxSysno
  E.store .subsysVersion
  E.store .subsystemNo
  return (.ok (),{ req with
    supported := ⟨subsys.2.maxSysno,subsys.2.subsysVersion,subsys.1⟩ })

/-- `all_subsystems().find(|(_, subsys)| subsys.uuid == id)`. -/
def System.subsystem (id : Uuid) : Option (BitVec 16 × SubsysInfo) :=
  S.registry.allSubsystems.find? fun s => s.2.uuid = id

def processRequest : m (Result × SysInfoRequest) :=
  match validateOptionHead req.head 0x0001#16 with
  | .error e => return (.error e,req)
  | .ok _ =>
    if req.head.flags &&& 0x00010000#32 ≠ 0#32 then return unanswered req
    else if req.head.ty = S.types.osver then answerOsVersion S E req
    else if req.head.ty = S.types.kvendor then answerKernelVendor S E req
    else if req.head.ty = S.types.archInfo then answerArchInfo S E req
    else if req.head.ty = S.types.computerName then answerComputerName S E req
    else match S.subsystem req.head.ty with
      | some subsys => answerSubsystem E req subsys
      | none => return unanswered req

end Program

/-- A computation of the calling thread. -/
def Run (α : Type) := Thread → Outcome α

instance : Monad Run where
  pure v := fun t => .returned v t
  bind x f := fun t => (x t).andThen f

namespace Run

variable {α β : Type}

lemma pure_apply (v : α) (t : Thread) : (pure v : Run α) t = .returned v t := rfl

lemma bind_apply (x : Run α) (f : α → Run β) (t : Thread) : (x >>= f) t = (x t).andThen f := rfl

/-- Both parts of a sequence return. -/
lemma bind_eq_returned {x : Run α} {f : α → Run β} {t u : Thread} {v : β} :
    (x >>= f) t = .returned v u ↔ ∃ a s, x t = .returned a s ∧ f a s = .returned v u := by
  rw [bind_apply]
  cases x t with
  | returned a s => simp [Outcome.andThen]
  | killed sig => simp [Outcome.andThen]
  | elsewhere buf => simp [Outcome.andThen]
  | stuck => simp [Outcome.andThen]

end Run

/-- Where the fields are in a request. -/
structure Layout where
  size : Word
  offset : Field → ℕ
  width : Field → ℕ
  inside : ∀ f, offset f+width f ≤ size.toNat

/-- What a call runs in: the permission map, the frame of its checked copies and the address of their
error record, and the layout of a request. -/
structure Host where
  system : System
  perms : Perms 64
  frame : JmpBuf
  err : Word
  layout : Layout

namespace Host

variable (H : Host)

/-- The field of the request at `a` may be stored to. -/
def writable (a : Word) (f : Field) : Bool :=
  decide (H.perms.Allows .write (a+BitVec.ofNat 64 (H.layout.offset f)) (H.layout.width f))

/-- A store to a field, which nothing catches if it faults. -/
def store (writable : Field → Bool) (f : Field) : Run Unit := fun t =>
  if writable f then .returned () t else .killed Signals.sigquit

/-- How much `fill_str` copies. -/
def copyLen (kstr : KStrPtr) (st : Str) : Word := if kstr.len ≤ st.len then kstr.len else st.len

/-- What `fill_str` returns and leaves when the copy went through. -/
def filled (kstr : KStrPtr) (st : Str) : Result × KStrPtr :=
  (if kstr.len < st.len then .error .insufficientLength else .ok (),{ kstr with len := st.len })

/-- `fill_str` of the string whose length is in the field `f`. -/
def fillStr (writable : Field → Bool) (f : Field) (kstr : KStrPtr) (st : Str) :
    Run (Result × KStrPtr) := fun t =>
  (copyNonoverlappingChecked H.perms H.frame t st.ptr kstr.strPtr (copyLen kstr st) 1#64
    H.err).andThen fun r t =>
      match r with
      | .error _ => .returned (.error .invalidMemory,kstr) t
      | .ok _ => (store writable f t).andThen fun _ t => .returned (filled kstr st) t

def effects (writable : Field → Bool) : Effects Run := ⟨store writable,H.fillStr writable⟩

/-- `process_request` on a request whose fields may be stored to as `writable` says. -/
def process (writable : Field → Bool) (req : SysInfoRequest) : Run (Result × SysInfoRequest) :=
  processRequest H.system (H.effects writable) req

end Host

section Flags

variable {S : System} {E : Effects Run} {req req' : SysInfoRequest} {r : Result} {t u : Thread}

/-- One of the types that `process_request` names. -/
def System.BuiltIn (S : System) (id : Uuid) : Prop :=
  id = S.types.osver ∨ id = S.types.kvendor ∨ id = S.types.archInfo ∨ id = S.types.computerName

/-- The id of a registered subsystem. -/
def System.Registered (S : System) (id : Uuid) : Prop :=
  ∃ num info, S.registry.subsysRegistry num = some info ∧ info.uuid = id

instance (S : System) (id : Uuid) : Decidable (S.BuiltIn id) :=
  inferInstanceAs (Decidable (_ ∨ _ ∨ _ ∨ _))

lemma subsystem_isSome_iff (S : System) (id : Uuid) :
    (S.subsystem id).isSome = true ↔ S.Registered id := by
  simp only [System.subsystem,System.Registered,Registry.allSubsystems,List.find?_isSome,
    List.mem_filterMap,Option.map_eq_some_iff,decide_eq_true_eq]
  constructor
  · rintro ⟨s,⟨num,-,info,hinfo,rfl⟩,hid⟩
    exact ⟨num,info,hinfo,hid⟩
  · rintro ⟨num,info,hinfo,hid⟩
    exact ⟨_,⟨num,List.mem_finRange num,info,hinfo,rfl⟩,hid⟩

/-- A request that is returned has this head. -/
def HeadIs (head : ExtendedOptionHead) (x : Run (Result × SysInfoRequest)) : Prop :=
  ∀ t r req' u, x t = .returned (r,req') u → req'.head = head

lemma headIs_pure {head : ExtendedOptionHead} (r : Result) (h : req.head = head) :
    HeadIs head (pure (r,req)) := by
  rintro t r' req' u ⟨⟩
  exact h

lemma headIs_bind {α : Type} {head : ExtendedOptionHead} {x : Run α}
    {f : α → Run (Result × SysInfoRequest)} (h : ∀ a, HeadIs head (f a)) : HeadIs head (x >>= f) := by
  intro t r req' u hrun
  obtain ⟨a,s,-,hrest⟩ := Run.bind_eq_returned.mp hrun
  exact h a s r req' u hrest

lemma answerOsVersion_head : HeadIs req.cleared.head (answerOsVersion S E req) := by
  refine headIs_bind fun _ => headIs_bind fun filled => ?_
  obtain ⟨e | v,k⟩ := filled
  · exact headIs_pure _ rfl
  · exact headIs_bind fun _ => headIs_bind fun _ => headIs_pure _ rfl

lemma answerKernelVendor_head : HeadIs req.cleared.head (answerKernelVendor S E req) := by
  refine headIs_bind fun _ => headIs_bind fun filled => ?_
  obtain ⟨e | v,k⟩ := filled
  · exact headIs_pure _ rfl
  · exact headIs_bind fun _ => headIs_bind fun _ => headIs_bind fun _ => headIs_pure _ rfl

lemma answerArchInfo_head : HeadIs req.cleared.head (answerArchInfo S E req) :=
  headIs_bind fun _ => headIs_bind fun _ => headIs_bind fun _ => headIs_pure _ rfl

lemma answerComputerName_head : HeadIs req.cleared.head (answerComputerName S E req) :=
  headIs_bind fun _ => headIs_bind fun _ => headIs_bind fun _ => headIs_bind fun _ =>
    headIs_bind fun _ => headIs_pure _ rfl

/-- A subsystem's request keeps its head. -/
lemma answerSubsystem_head {subsys : BitVec 16 × SubsysInfo} :
    HeadIs req.head (answerSubsystem E req subsys) :=
  headIs_bind fun _ => headIs_bind fun _ => headIs_bind fun _ => headIs_pure _ rfl

/-- A request that is looked at beyond its head. -/
structure Accepted (req : SysInfoRequest) : Prop where
  valid : validateOptionHead req.head 0x0001#16 = .ok ()
  heeded : req.head.flags &&& 0x00010000#32 = 0#32

/-- What a built-in type is answered with has bit 0 clear. -/
lemma processRequest_builtIn (ha : Accepted req) (hb : S.BuiltIn req.head.ty) :
    HeadIs req.cleared.head (processRequest S E req) := by
  unfold processRequest
  simp only [ha.valid,ha.heeded,ne_eq,not_true_eq_false,if_false]
  split_ifs with h₁ h₂ h₃ h₄
  · exact answerOsVersion_head
  · exact answerKernelVendor_head
  · exact answerArchInfo_head
  · exact answerComputerName_head
  · rcases hb with hb | hb | hb | hb <;> contradiction

lemma processRequest_subsystem (ha : Accepted req) (hb : ¬ S.BuiltIn req.head.ty)
    {subsys : BitVec 16 × SubsysInfo} (hs : S.subsystem req.head.ty = some subsys) :
    processRequest S E req = answerSubsystem E req subsys := by
  obtain ⟨h₁,h₂,h₃,h₄⟩ : req.head.ty ≠ S.types.osver ∧ req.head.ty ≠ S.types.kvendor ∧
      req.head.ty ≠ S.types.archInfo ∧ req.head.ty ≠ S.types.computerName := by
    simpa [System.BuiltIn,not_or] using hb
  unfold processRequest
  simp only [ha.valid,ha.heeded,ne_eq,not_true_eq_false,if_false,h₁,h₂,h₃,h₄,hs]

/-- Bit 0, which asks for the request to be ignored if it is not known. -/
def SysInfoRequest.ignorable (req : SysInfoRequest) : Bool := req.head.flags &&& 0x0001#32 ≠ 0#32

lemma cleared_ignorable (req : SysInfoRequest) : req.cleared.ignorable = false := by
  have hzero : req.head.flags &&& ~~~0x0001#32 &&& 0x0001#32 = 0#32 := by
    rw [BitVec.and_assoc]
    simp
  exact decide_eq_false (not_not_intro hzero)

/-- A type that some answer is for. -/
def System.Recognised (S : System) (id : Uuid) : Prop := S.BuiltIn id ∨ S.Registered id

/-- After a success bit 0 is set only for a type that is not recognised, and clear for one that is. -/
def TellsAnswered (S : System) (req : SysInfoRequest) (out : Outcome (Result × SysInfoRequest)) :
    Prop :=
  ∀ req' u, out = .returned (.ok (),req') u →
    (req'.ignorable = true → ¬ S.Recognised req.head.ty) ∧
      (S.Recognised req.head.ty → req'.ignorable = false)

/-- The three stores of a subsystem's answer. -/
def SubsystemStores (writable : Field → Bool) : Prop :=
  writable .maxSysno = true ∧ writable .subsysVersion = true ∧ writable .subsystemNo = true

lemma store_eq_returned {writable : Field → Bool} {f : Field} {v : Unit}
    (h : Host.store writable f t = .returned v u) : writable f = true := by
  unfold Host.store at h
  split_ifs at h with hw
  exact hw

lemma answerSubsystem_returns {H : Host} {writable : Field → Bool}
    (subsys : BitVec 16 × SubsysInfo) (hw : SubsystemStores writable) (t : Thread) :
    ∃ req', answerSubsystem (H.effects writable) req subsys t = .returned (.ok (),req') t := by
  obtain ⟨h₁,h₂,h₃⟩ := hw
  refine ⟨{ req with supported := ⟨subsys.2.maxSysno,subsys.2.subsysVersion,subsys.1⟩ },?_⟩
  simp [answerSubsystem,Run.bind_apply,Run.pure_apply,Host.effects,Host.store,h₁,h₂,h₃,
    Outcome.andThen]

lemma answerSubsystem_stores {H : Host} {writable : Field → Bool}
    {subsys : BitVec 16 × SubsysInfo}
    (h : answerSubsystem (H.effects writable) req subsys t = .returned (r,req') u) :
    SubsystemStores writable := by
  unfold answerSubsystem at h
  obtain ⟨_,s,h₁,h⟩ := Run.bind_eq_returned.mp h
  obtain ⟨_,s,h₂,h⟩ := Run.bind_eq_returned.mp h
  obtain ⟨_,s,h₃,-⟩ := Run.bind_eq_returned.mp h
  exact ⟨store_eq_returned h₁,store_eq_returned h₂,store_eq_returned h₃⟩

/-- The flag tells what was answered unless the request is for a registered subsystem, asks to be
ignored, and gets its answer. -/
theorem ignore_flag_iff (H : Host) (writable : Field → Bool) (req : SysInfoRequest) (t : Thread)
    (ha : Accepted req) :
    TellsAnswered H.system req (H.process writable req t) ↔
      ¬ (¬ H.system.BuiltIn req.head.ty ∧ H.system.Registered req.head.ty ∧
        req.ignorable = true ∧ SubsystemStores writable) := by
  by_cases hb : H.system.BuiltIn req.head.ty
  · refine iff_of_true (fun req' u h => ?_) fun hc => hc.1 hb
    have hclear : req'.ignorable = false := by
      rw [SysInfoRequest.ignorable,processRequest_builtIn ha hb _ _ _ _ h]
      exact cleared_ignorable req
    exact ⟨fun hset => absurd hset (by simp [hclear]),fun _ => hclear⟩
  · by_cases hr : H.system.Registered req.head.ty
    · obtain ⟨subsys,hsub⟩ := Option.isSome_iff_exists.mp ((subsystem_isSome_iff _ _).mpr hr)
      rw [Host.process,processRequest_subsystem ha hb hsub]
      constructor
      · rintro h ⟨-,-,hset,hstores⟩
        obtain ⟨req',hreq⟩ := answerSubsystem_returns subsys hstores t
        have hclear := (h req' t hreq).2 (.inr hr)
        rw [SysInfoRequest.ignorable,answerSubsystem_head _ _ _ _ hreq] at hclear
        rw [SysInfoRequest.ignorable,hclear] at hset
        cases hset
      · intro h req' u hreq
        have hclear : req'.ignorable = false := by
          rw [SysInfoRequest.ignorable,answerSubsystem_head _ _ _ _ hreq]
          by_contra hset
          exact h ⟨hb,hr,Bool.of_not_eq_false hset,answerSubsystem_stores hreq⟩
        exact ⟨fun hset => absurd hset (by simp [hclear]),fun _ => hclear⟩
    · have hnot : ¬ H.system.Recognised req.head.ty := fun h => h.elim hb hr
      exact iff_of_true (fun req' u _ => ⟨fun _ => hnot,fun h => absurd h hnot⟩) fun hc => hr hc.2.1

end Flags

section Sample

lemma sample_distinct : [1#128,2#128,3#128,4#128].Nodup := by decide

/-- Types 1 to 4, a name of eight bytes, and a subsystem with the id 9. -/
def sampleSystem : System where
  types := ⟨1#128,2#128,3#128,4#128,sample_distinct⟩
  osElabName := ⟨0x8000#64,6#64⟩
  kvendorName := ⟨0x8010#64,11#64⟩
  computerName := ⟨0x8020#64,8#64⟩
  computerId := 5#128
  version := 6#128
  versionMajor := 0#32
  versionMinor := 1#32
  archType := 7#128
  archVersion := 3#32
  registry := ⟨fun _ => none,8#64,Function.update (fun _ => none) 8 (some ⟨9#128,1#64,20#16⟩)⟩

lemma sample_inside (_ : Field) : 16+4 ≤ (128#64 : Word).toNat := by decide

def sampleHost : Host :=
  ⟨sampleSystem,fun _ _ => none,0,0x9000#64,⟨128#64,fun _ => 16,fun _ => 4,sample_inside⟩⟩

def sampleRequest (ty : Uuid) (flags : BitVec 32) (name : KStrPtr) : SysInfoRequest :=
  ⟨⟨ty,flags,[]⟩,⟨name,0,0⟩,⟨name,0,0,0⟩,⟨0,0⟩,⟨name,⟨name.strPtr+8#64,name.len⟩,
    ⟨name.strPtr+16#64,name.len⟩,0⟩,⟨0,0,0⟩⟩

theorem ignore_flag_iff_osver :
    Accepted (sampleRequest 1#128 1#32 ⟨0x1000#64,6#64⟩) ∧
      TellsAnswered sampleSystem (sampleRequest 1#128 1#32 ⟨0x1000#64,6#64⟩)
        (sampleHost.process (fun _ => true) (sampleRequest 1#128 1#32 ⟨0x1000#64,6#64⟩)
          calmThread) := by
  have ha : Accepted (sampleRequest 1#128 1#32 ⟨0x1000#64,6#64⟩) := ⟨by decide,by decide⟩
  refine ⟨ha,(ignore_flag_iff sampleHost _ _ _ ha).mpr fun h => h.1 (.inl rfl)⟩

/-- A registered subsystem is told with the flag still set. -/
theorem subsystem_keeps_flag :
    sampleHost.process (fun _ => true) (sampleRequest 9#128 1#32 ⟨0x1000#64,0#64⟩) calmThread =
        .returned (.ok (),{ sampleRequest 9#128 1#32 ⟨0x1000#64,0#64⟩ with
          supported := ⟨20#16,1#64,8#16⟩ }) calmThread ∧
      ¬ TellsAnswered sampleSystem (sampleRequest 9#128 1#32 ⟨0x1000#64,0#64⟩)
        (sampleHost.process (fun _ => true) (sampleRequest 9#128 1#32 ⟨0x1000#64,0#64⟩)
          calmThread) := by
  have hrun : sampleHost.process (fun _ => true) (sampleRequest 9#128 1#32 ⟨0x1000#64,0#64⟩)
      calmThread = .returned (.ok (),{ sampleRequest 9#128 1#32 ⟨0x1000#64,0#64⟩ with
        supported := ⟨20#16,1#64,8#16⟩ }) calmThread := rfl
  have hr : sampleSystem.Registered 9#128 := ⟨8,⟨9#128,1#64,20#16⟩,rfl,rfl⟩
  refine ⟨hrun,fun h => ?_⟩
  exact absurd ((h _ _ hrun).2 (.inr hr)) (by decide)

end Sample

end WinterLily.Info
