import WinterLily.Base.Transition
import Mathlib.Data.BitVec
import Mathlib.Data.List.FinRange

/-! The subsystem registry of `wl-impl/src/syscall_handler.rs` and the dispatcher that decodes a
system call number against it. Handlers and subsystem descriptions are opaque to both. -/
namespace WinterLily.Syscall
open WinterLily.Transition

abbrev Word := BitVec 64

variable {α β : Type*}

/-- `[Option<SysCallTyErased>; 4096]`. -/
abbrev Table (α : Type*) := Fin 4096 → Option α

/-- The three statics; a null pointer is `none`. -/
structure Registry (α β : Type*) where
  syscallSubsysArray : Fin 64 → Option (Table α)
  nextDynSubsys : Word
  subsysRegistry : Fin 64 → Option β

def Registry.initial : Registry α β := ⟨fun _ => none,8#64,fun _ => none⟩

/-- The arguments of one `register_subsys`. -/
structure Call (α β : Type*) where
  subsys : Word
  arr : Table α
  info : β

/-- `!0`, which asks for the next free number. -/
def dynamicMarker : Word := ~~~0#64

def Call.dynamic (c : Call α β) : Bool := c.subsys = dynamicMarker

namespace Registry

/-- The number a call registers under. -/
def target (s : Registry α β) (c : Call α β) : Word :=
  if c.dynamic then s.nextDynSubsys else c.subsys

/-- The two stores, behind the bounds check of the indexing. -/
def store (s : Registry α β) (subsys : Word) (c : Call α β) : Option (Registry α β) :=
  if h : subsys.toNat < 64 then
    some { s with
      syscallSubsysArray := Function.update s.syscallSubsysArray ⟨subsys.toNat,h⟩ (some c.arr)
      subsysRegistry := Function.update s.subsysRegistry ⟨subsys.toNat,h⟩ (some c.info) }
  else none

/-- `register_subsys`; `none` is a panic. The test is the source's: it lets 64 through to the bounds
check. -/
def register (s : Registry α β) (c : Call α β) : Option (Registry α β) :=
  if c.dynamic then
    let val := s.nextDynSubsys
    let s := { s with nextDynSubsys := val+1 }
    if 64#64 < val then none else s.store val c
  else s.store c.subsys c

/-- `all_subsystems`. -/
def allSubsystems (s : Registry α β) : List (BitVec 16 × β) :=
  (List.finRange 64).filterMap fun num =>
    (s.subsysRegistry num).map fun v => (BitVec.ofNat 16 num,v)

end Registry

/-- How `__handle_syscall` ends. -/
inductive Dispatch (α : Type*)
  | jump (handler : α)
  | unsupportedKernelFunction
  | outOfRange
  deriving DecidableEq, Repr

/-- A load of element `i` of an array of pointers. -/
def load {n : ℕ} {γ : Type*} (a : Fin n → Option γ) (i : Word)
    (loaded : Option γ → Dispatch α) : Dispatch α :=
  if h : i.toNat < n then loaded (a ⟨i.toNat,h⟩) else .outOfRange

/-- `__handle_syscall`, from the shift of `r10` to the jump through `r11`. -/
def handleSyscall (s : Registry α β) (rax : Word) : Dispatch α :=
  let r10 := rax >>> 12
  let rax := rax &&& 0xFFF#64
  if 64#64 ≤ r10 then .unsupportedKernelFunction
  else
    load s.syscallSubsysArray r10 fun
      | none => .unsupportedKernelFunction
      | some r11 =>
        load r11 rax fun
          | none => .unsupportedKernelFunction
          | some r11 => .jump r11

/-- The calls of a history, each with the number it registered under. -/
def history : Registry α β → List (Call α β) → List (Word × Call α β)
  | _,[] => []
  | s,c::cs => (s.target c,c)::(match s.register c with
    | none => []
    | some t => history t cs)

/-- The last call that registered under `k`. -/
def lastAt (log : List (Word × Call α β)) (k : ℕ) : Option (Call α β) :=
  (log.reverse.find? fun e => e.1.toNat == k).map Prod.snd

lemma lastAt_snoc (log : List (Word × Call α β)) (e : Word × Call α β) (k : ℕ) :
    lastAt (log++[e]) k = if e.1.toNat = k then some e.2 else lastAt log k := by
  simp only [lastAt,List.reverse_append,List.reverse_singleton,List.singleton_append,
    List.find?_cons]
  by_cases h : e.1.toNat = k
  · simp [h]
  · simp [beq_eq_false_iff_ne.mpr h,h]

/-- A registered number, or none: below 8 by the caller, from 8 on by the counter. -/
def Call.Permitted (c : Call α β) : Prop := c.dynamic = true ∨ c.subsys.toNat < 8

/-- Two calls may share a number only if both asked for it. -/
def Apart (e f : Word × Call α β) : Prop :=
  e.2.dynamic = true ∨ f.2.dynamic = true → e.1.toNat ≠ f.1.toNat

/-- The registry after the calls in `log`. -/
structure Registered (s : Registry α β) (log : List (Word × Call α β)) : Prop where
  counter : 8 ≤ s.nextDynSubsys.toNat ∧ s.nextDynSubsys.toNat ≤ 64
  below : ∀ e ∈ log, e.1.toNat < 64
  explicit : ∀ e ∈ log, e.2.dynamic = false → e.1.toNat < 8
  dynamic : ∀ e ∈ log, e.2.dynamic = true → 8 ≤ e.1.toNat ∧ e.1.toNat < s.nextDynSubsys.toNat
  apart : log.Pairwise Apart
  table : ∀ k, s.syscallSubsysArray k = (lastAt log k).map Call.arr
  info : ∀ k, s.subsysRegistry k = (lastAt log k).map Call.info

lemma initial_registered : Registered (Registry.initial : Registry α β) [] :=
  ⟨⟨le_rfl,by simp [Registry.initial]⟩,by simp,by simp,by simp,.nil,fun _ => rfl,fun _ => rfl⟩

lemma target_dynamic (s : Registry α β) {c : Call α β} (h : c.dynamic = true) :
    s.target c = s.nextDynSubsys := if_pos h

lemma target_explicit (s : Registry α β) {c : Call α β} (h : c.dynamic = false) :
    s.target c = c.subsys := if_neg (by simp [h])

/-- What a call that does not panic does, in either case. -/
lemma register_eq_some {s t : Registry α β} {c : Call α β} (h : s.register c = some t) :
    ∃ hlt : (s.target c).toNat < 64,
      t.nextDynSubsys = (if c.dynamic then s.nextDynSubsys+1 else s.nextDynSubsys) ∧
      t.syscallSubsysArray = Function.update s.syscallSubsysArray ⟨_,hlt⟩ (some c.arr) ∧
      t.subsysRegistry = Function.update s.subsysRegistry ⟨_,hlt⟩ (some c.info) := by
  cases hd : c.dynamic with
  | true =>
    simp only [target_dynamic s hd]
    simp only [Registry.register,hd,if_true] at h
    split_ifs at h
    unfold Registry.store at h
    split_ifs at h with hlt
    cases h
    exact ⟨hlt,rfl,rfl,rfl⟩
  | false =>
    simp only [target_explicit s hd]
    rw [Registry.register,if_neg (by simp [hd]),Registry.store] at h
    split_ifs at h with hlt
    cases h
    exact ⟨hlt,rfl,rfl,rfl⟩

/-- A slot after a store, in terms of the log. -/
lemma stored_eq {γ : Type*} {a : Fin 64 → Option γ} {log : List (Word × Call α β)}
    {f : Call α β → γ} (ha : ∀ k, a k = (lastAt log k).map f) {e : Word × Call α β}
    (hlt : e.1.toNat < 64) (k : Fin 64) :
    Function.update a ⟨e.1.toNat,hlt⟩ (some (f e.2)) k = (lastAt (log++[e]) k).map f := by
  rw [lastAt_snoc]
  by_cases hk : k = ⟨e.1.toNat,hlt⟩
  · subst hk
    simp
  · have hne : ¬ e.1.toNat = k.val := fun hek => hk (Fin.ext hek.symm)
    rw [Function.update_of_ne hk,ha,if_neg hne]

/-- Below 8 the caller chose the number, and a dynamic one is past all that were given out. -/
lemma Registered.snoc_apart {s : Registry α β} {log : List (Word × Call α β)}
    (hs : Registered s log) {c : Call α β} (hc : c.Permitted) (e : Word × Call α β) (he : e ∈ log) :
    Apart e (s.target c,c) := by
  intro hdyn
  cases hd : c.dynamic with
  | true =>
    rw [target_dynamic s hd]
    cases hed : e.2.dynamic with
    | true => exact (hs.dynamic e he hed).2.ne
    | false => exact ((hs.explicit e he hed).trans_le hs.counter.1).ne
  | false =>
    have hlt : c.subsys.toNat < 8 := hc.resolve_left (by simp [hd])
    have hge := hs.dynamic e he (hdyn.resolve_right (by simp [hd]))
    rw [target_explicit s hd]
    exact (hlt.trans_le hge.1).ne'

lemma Registered.register {s t : Registry α β} {log : List (Word × Call α β)}
    (hs : Registered s log) {c : Call α β} (hc : c.Permitted) (h : s.register c = some t) :
    Registered t (log++[(s.target c,c)]) := by
  obtain ⟨hlt,hnext,htable,hinfo⟩ := register_eq_some h
  have hcount := hs.counter
  have hgrow : s.nextDynSubsys.toNat ≤ t.nextDynSubsys.toNat ∧ t.nextDynSubsys.toNat ≤ 64 ∧
      (c.dynamic = true → (s.target c).toNat = s.nextDynSubsys.toNat ∧
        t.nextDynSubsys.toNat = s.nextDynSubsys.toNat+1) := by
    cases hd : c.dynamic with
    | true =>
      rw [target_dynamic s hd] at hlt ⊢
      have hsucc : t.nextDynSubsys.toNat = s.nextDynSubsys.toNat+1 := by
        rw [hnext,hd,if_pos rfl,BitVec.toNat_add]
        exact Nat.mod_eq_of_lt (by change _+1 < _; omega)
      omega
    | false =>
      rw [hd,if_neg (by simp)] at hnext
      rw [hnext]
      exact ⟨le_rfl,hcount.2,by simp⟩
  have hmem : ∀ e ∈ log++[(s.target c,c)], e ∈ log ∨ e = (s.target c,c) := by simp
  refine ⟨⟨by omega,hgrow.2.1⟩,fun e he => ?_,fun e he hed => ?_,fun e he hed => ?_,?_,
    fun k => ?_,fun k => ?_⟩
  · cases hmem e he with
    | inl he => exact hs.below e he
    | inr he => rwa [he]
  · cases hmem e he with
    | inl he => exact hs.explicit e he hed
    | inr he =>
      rw [he] at hed ⊢
      have hlt : c.subsys.toNat < 8 := hc.resolve_left (by simp [hed])
      change (s.target c).toNat < 8
      rwa [target_explicit s hed]
  · cases hmem e he with
    | inl he =>
      have := hs.dynamic e he hed
      omega
    | inr he =>
      rw [he] at hed ⊢
      have := hgrow.2.2 hed
      change 8 ≤ (s.target c).toNat ∧ (s.target c).toNat < _
      omega
  · rw [List.pairwise_append]
    refine ⟨hs.apart,List.pairwise_singleton _ _,fun e he f hf => ?_⟩
    rw [List.mem_singleton.mp hf]
    exact hs.snoc_apart hc e he
  · rw [htable]
    exact stored_eq (e := (s.target c,c)) hs.table hlt k
  · rw [hinfo]
    exact stored_eq (e := (s.target c,c)) hs.info hlt k

/-- Every history of calls that do not panic. -/
lemma Registered.run {s t : Registry α β} {log : List (Word × Call α β)} (hs : Registered s log)
    {calls : List (Call α β)} (hcalls : ∀ c ∈ calls, c.Permitted)
    (h : run Registry.register s calls = some t) : Registered t (log++history s calls) := by
  induction calls generalizing s log with
  | nil =>
    cases h
    simpa [history] using hs
  | cons c calls ih =>
    obtain ⟨u,hu,ht⟩ := Option.bind_eq_some_iff.mp h
    have hstep := hs.register (hcalls c (by simp)) hu
    have hrest := ih hstep (fun d hd => hcalls d (by simp [hd])) ht
    simpa [history,hu] using hrest

/-- A jump to the entry found, or the error when there is none. -/
def Dispatch.ofEntry : Option α → Dispatch α
  | none => .unsupportedKernelFunction
  | some f => .jump f

/-- The decoding of the number, as division with remainder. -/
lemma handleSyscall_eq (s : Registry α β) (n : Word) :
    handleSyscall s n = .ofEntry (if h : n.toNat/4096 < 64 then
        (s.syscallSubsysArray ⟨n.toNat/4096,h⟩).bind fun t =>
          t ⟨n.toNat%4096,Nat.mod_lt _ (by decide)⟩
      else none) := by
  have hhi : (n >>> 12).toNat = n.toNat/4096 := by
    rw [BitVec.toNat_ushiftRight,Nat.shiftRight_eq_div_pow]
  have hlo : (n &&& 0xFFF#64).toNat = n.toNat%4096 := by
    rw [BitVec.toNat_and]
    exact Nat.and_two_pow_sub_one_eq_mod n.toNat 12
  have hle : 64#64 ≤ n >>> 12 ↔ ¬ n.toNat/4096 < 64 := by
    rw [BitVec.le_def,hhi,Nat.not_lt]
    rfl
  have hmod : n.toNat%4096 < 4096 := Nat.mod_lt _ (by decide)
  simp only [handleSyscall,load,hle,hhi,hlo,hmod,dif_pos]
  by_cases h : n.toNat/4096 < 64
  · simp only [h,not_true_eq_false,if_false,dif_pos]
    cases s.syscallSubsysArray ⟨n.toNat/4096,h⟩ with
    | none => rfl
    | some t =>
      cases t ⟨n.toNat%4096,hmod⟩ <;> rfl
  · simp only [h,not_false_eq_true,if_true,dif_neg,Dispatch.ofEntry]

lemma lastAt_none {log : List (Word × Call α β)} {k : ℕ} (h : ∀ e ∈ log, e.1.toNat ≠ k) :
    lastAt log k = none := by
  rw [lastAt,Option.map_eq_none_iff,List.find?_eq_none]
  intro e he
  simpa using h e (List.mem_reverse.mp he)

/-- The entry that a number selects in the table last registered for its subsystem. -/
def selected (log : List (Word × Call α β)) (n : Word) : Option α :=
  (lastAt log (n.toNat/4096)).bind fun c => c.arr ⟨n.toNat%4096,Nat.mod_lt _ (by decide)⟩

/-- The dispatcher and the listing agree with the history of registrations, in which no dynamic
number is given out twice or is one that a caller chose. -/
theorem dispatch_matches_registry {calls : List (Call α β)} {s : Registry α β}
    (hcalls : ∀ c ∈ calls, c.Permitted) (h : run Registry.register .initial calls = some s) :
    (∀ e ∈ history .initial calls, e.1.toNat < 64 ∧ (e.2.dynamic = true → 8 ≤ e.1.toNat)) ∧
    (history .initial calls).Pairwise Apart ∧
    (∀ n, handleSyscall s n = .ofEntry (selected (history .initial calls) n)) ∧
    s.allSubsystems = (List.finRange 64).filterMap fun num : Fin 64 =>
      (lastAt (history .initial calls) num.val).map fun c => (BitVec.ofNat 16 num,c.info) := by
  have hreg := initial_registered.run hcalls h
  rw [List.nil_append] at hreg
  refine ⟨fun e he => ⟨hreg.below e he,fun hd => (hreg.dynamic e he hd).1⟩,hreg.apart,fun n => ?_,?_⟩
  · rw [handleSyscall_eq,selected]
    by_cases hn : n.toNat/4096 < 64
    · rw [dif_pos hn,hreg.table]
      cases lastAt (history .initial calls) (n.toNat/4096) <;> rfl
    · have hnone : lastAt (history .initial calls) (n.toNat/4096) = none :=
        lastAt_none fun e he hek => hn (hek ▸ hreg.below e he)
      rw [dif_neg hn,hnone]
      rfl
  · unfold Registry.allSubsystems
    congr 1
    funext num
    rw [hreg.info num,Option.map_map]
    rfl

/-- One explicit and two dynamic registrations. -/
def threeCalls : List (Call ℕ ℕ) :=
  [⟨3#64,fun i => some i.val,30⟩,⟨dynamicMarker,fun _ => none,40⟩,
    ⟨dynamicMarker,fun i => if i.val = 5 then some 7 else none,50⟩]

theorem dispatch_matches_registry_three :
    ∃ s, run Registry.register .initial threeCalls = some s ∧
      handleSyscall s 0x3002#64 = .jump 2 ∧ handleSyscall s 0x9005#64 = .jump 7 ∧
      handleSyscall s 0x8005#64 = .unsupportedKernelFunction ∧
      s.allSubsystems = [(3#16,30),(8#16,40),(9#16,50)] := by
  have hcalls : ∀ c ∈ threeCalls, c.Permitted := by
    simp [threeCalls,Call.Permitted,Call.dynamic,dynamicMarker]
  obtain ⟨s,hs⟩ : ∃ s, run Registry.register .initial threeCalls = some s := ⟨_,rfl⟩
  obtain ⟨-,-,hdispatch,hlist⟩ := dispatch_matches_registry hcalls hs
  exact ⟨s,hs,hdispatch _,hdispatch _,hdispatch _,hlist.trans rfl⟩

end WinterLily.Syscall
