import WinterLily.Once.Sequential
import Mathlib.Data.List.Forall2

/-! What a `OnceLock` is for: an optional value that is set once and can be asked for. The calls
follow that specification exactly as long as no shared call lets its initialiser fail. -/
namespace WinterLily.Once

variable {V E σ : Type*}

namespace Request

/-- The call through `&mut self`. -/
def toMut : Request V E → Request V E
  | .get _ => .get .exclusive
  | .getOrInit _ v => .getOrInit .exclusive v
  | .getOrTryInit _ r => .getOrTryInit .exclusive r
  | .set v => .set v
  | .take => .take

/-- The initialiser of the call returns `None` or `Err`. -/
def fails : Request V E → Bool
  | .get _ => true
  | .getOrTryInit _ (.error _) => true
  | _ => false

/-- The initialiser fails and the call is a shared one. -/
def poisons : Request V E → Bool
  | .get .shared => true
  | .getOrTryInit .shared (.error _) => true
  | _ => false

/-- The optional value, asked for and changed as the documentation of the calls has it. -/
def spec (st : Option V) : Request V E → Answer V E × Option V
  | .get _ => (.option st,st)
  | .getOrInit _ v => (.value (st.getD v),some (st.getD v))
  | .getOrTryInit _ r =>
    match st,r with
    | some v,_ => (.result (.ok v),st)
    | none,.ok v => (.result (.ok v),some v)
    | none,.error e => (.result (.error e),none)
  | .set v =>
    match st with
    | some _ => (.stored (.error v),st)
    | none => (.stored (.ok ()),some v)
  | .take => (.option st,none)

@[simp] lemma toMut_poisons (q : Request V E) : q.toMut.poisons = false := by
  cases q <;> rfl

/-- The optional value after a sequence of calls. -/
def final (st : Option V) : List (Request V E) → Option V
  | [] => st
  | q::qs => final (q.spec st).2 qs

/-- The answers of a sequence of calls. -/
def answers (st : Option V) : List (Request V E) → List (Answer V E)
  | [] => []
  | q::qs => (q.spec st).1::answers (q.spec st).2 qs

/-- No shared call whose initialiser fails is made on an empty cell. -/
def Harmless (st : Option V) : List (Request V E) → Prop
  | [] => True
  | q::qs => (st = none → q.poisons = false) ∧ Harmless (q.spec st).2 qs

end Request

namespace Cell

/-- The flags agree with the optional value, which stands in the cell. -/
def Represents (c : Cell V) : Option V → Prop
  | none => c.lock = 0#64
  | some v => c.lock = Flag.init ∧ c.val = some v

lemma new_represents : (new : Cell V).Represents none := rfl

section Paths

variable {c : Cell V} {env : σ} {f : σ → Except Fault (Except E V × σ)} {v : V}

/-- On a cell that holds a value both paths return it and never run the initialiser. -/
lemma access_full (m : Mode) (h : c.Represents (some v)) :
    c.access m env f = .ok (.ok v,env,c) := by
  obtain ⟨hl,hv⟩ := h
  cases m with
  | shared =>
    simp [access,tryGetOrInit,isInit,read,hl,hv,Flags.has,Flag.init,Except.map]
  | exclusive =>
    simp [access,tryGetOrInitMut,isInit,isPoisoned,read,hl,hv,Flags.has,Flag.init,Flag.poisoned,
      Except.map]

/-- What a failed initialiser leaves of an empty cell. -/
def afterFailure (c : Cell V) : Mode → Cell V
  | .shared => c.dropBomb
  | .exclusive => c

/-- On an empty cell both paths run the initialiser and keep its value; they differ in what is
left when it fails. -/
lemma access_empty (m : Mode) (h : c.Represents none) :
    c.access m env f = (f env).map fun
      | (.ok v,env) => (.ok v,env,⟨Flag.init,some v⟩)
      | (.error e,env) => (.error e,env,c.afterFailure m) := by
  change c.lock = 0#64 at h
  obtain ⟨l,w⟩ := c
  subst h
  cases m with
  | shared =>
    rcases hf : f env with e | ⟨e | v,env'⟩ <;>
    simp [access,tryGetOrInit,isInit,isPoisoned,afterFailure,dropBomb,hf,Flags.has,Flag.lock,
      Flag.poisoned,Except.map]
  | exclusive =>
    rcases hf : f env with e | ⟨e | v,env'⟩ <;>
    simp [access,tryGetOrInitMut,isInit,isPoisoned,afterFailure,hf,Flags.has,Except.map]

/-- A poisoned cell lets nobody in. -/
lemma access_poisoned (m : Mode) (h : c.lock = Flag.poisoned) :
    c.access m env f = .error .panic := by
  cases m with
  | shared =>
    simp [access,tryGetOrInit,isInit,isPoisoned,h,Flags.has,Flag.init,Flag.poisoned]
  | exclusive =>
    simp [access,tryGetOrInitMut,isPoisoned,h,Flags.has,Flag.poisoned]

end Paths

/-- A call that does not poison an empty cell answers as the specification does. -/
lemma call_refines {c : Cell V} {st : Option V} {q : Request V E} (h : c.Represents st)
    (hq : st = none → q.poisons = false) :
    ∃ c', c.call q = .ok ((q.spec st).1,c') ∧ c'.Represents (q.spec st).2 := by
  cases st with
  | some v =>
    cases q with
    | take =>
      have hi : c.isInit = true := by simp [isInit,h.1,Flags.has,Flag.init]
      refine ⟨{ c with lock := 0#64 },?_,rfl⟩
      simp [call,take,hi,read,h.2,Except.map,Request.spec]
    | _ =>
      refine ⟨c,?_,h⟩
      simp [call,get,getOrInit,getOrTryInit,set,access_full _ h,Except.map,Except.toOption,
        Request.spec]
  | none =>
    have hq := hq rfl
    cases q with
    | take =>
      have hi : c.isInit = false := by
        change c.lock = 0#64 at h
        simp [isInit,h,Flags.has]
      exact ⟨c,by simp [call,take,hi,Except.map,Request.spec],h⟩
    | set w =>
      refine ⟨⟨Flag.init,some w⟩,?_,rfl,rfl⟩
      simp [call,set,access_empty _ h,Except.map,Request.spec]
    | getOrInit m w =>
      refine ⟨⟨Flag.init,some w⟩,?_,rfl,rfl⟩
      simp [call,getOrInit,access_empty _ h,Except.map,Request.spec]
    | get m =>
      cases m with
      | shared => cases hq
      | exclusive =>
        refine ⟨c,?_,h⟩
        simp [call,get,access_empty _ h,afterFailure,Except.map,Except.toOption,Request.spec]
    | getOrTryInit m r =>
      rcases r with e | w
      · cases m with
        | shared => cases hq
        | exclusive =>
          refine ⟨c,?_,h⟩
          simp [call,getOrTryInit,access_empty _ h,afterFailure,Except.map,Request.spec]
      · refine ⟨⟨Flag.init,some w⟩,?_,rfl,rfl⟩
        simp [call,getOrTryInit,access_empty _ h,Except.map,Request.spec]

/-- Such a call and its `_mut` counterpart leave the same cell with the same answer. -/
lemma call_toMut {c : Cell V} {st : Option V} {q : Request V E} (h : c.Represents st)
    (hq : st = none → q.poisons = false) : c.call q.toMut = c.call q := by
  cases st with
  | some v =>
    cases q <;> simp [Request.toMut,call,get,getOrInit,getOrTryInit,access_full _ h]
  | none =>
    have hq := hq rfl
    cases q with
    | get m =>
      cases m with
      | shared => cases hq
      | exclusive => rfl
    | getOrTryInit m r =>
      cases m with
      | exclusive => rfl
      | shared =>
        cases r with
        | error e => cases hq
        | ok w => simp [Request.toMut,call,getOrTryInit,access_empty _ h,Except.map]
    | getOrInit m w => simp [Request.toMut,call,getOrInit,access_empty _ h,Except.map]
    | _ => rfl

/-- A failing shared call on an empty cell poisons it. -/
lemma call_poisons {c : Cell V} {q : Request V E} (h : c.Represents none)
    (hq : q.poisons = true) : c.call q = .ok ((q.spec none).1,c.dropBomb) := by
  cases q with
  | get m =>
    cases m with
    | shared =>
      simp [call,get,access_empty _ h,afterFailure,Except.map,Except.toOption,Request.spec]
    | exclusive => cases hq
  | getOrTryInit m r =>
    cases m with
    | shared =>
      cases r with
      | error e => simp [call,getOrTryInit,access_empty _ h,afterFailure,Except.map,Request.spec]
      | ok w => cases hq
    | exclusive => cases hq
  | _ => cases hq

/-- The poison stays: nothing but `take` returns, and the next query panics. -/
lemma calls_poisoned {c : Cell V} (qs : List (Request V E)) (h : c.lock = Flag.poisoned) :
    c.calls (qs++[.get .exclusive]) = .error .panic := by
  induction qs with
  | nil => simp [calls,call,get,access_poisoned _ h,Except.map]
  | cons q qs ih =>
    cases q with
    | take =>
      have hi : c.isInit = false := by simp [isInit,h,Flags.has,Flag.poisoned,Flag.init]
      simp [calls,call,take,hi,ih,Except.map]
    | _ => simp [calls,call,get,getOrInit,getOrTryInit,set,access_poisoned _ h,Except.map]

/-- A harmless sequence answers as the specification does. -/
theorem calls_refine {c : Cell V} {st : Option V} {qs : List (Request V E)}
    (h : c.Represents st) (hq : Request.Harmless st qs) :
    ∃ c', c.calls qs = .ok (Request.answers st qs,c') ∧ c'.Represents (Request.final st qs) := by
  induction qs generalizing c st with
  | nil => exact ⟨c,rfl,h⟩
  | cons q qs ih =>
    obtain ⟨c₁,hc₁,hr₁⟩ := call_refines h hq.1
    obtain ⟨c₂,hc₂,hr₂⟩ := ih hr₁ hq.2
    exact ⟨c₂,by simp [calls,hc₁,hc₂,Except.map,Request.answers],hr₂⟩

/-- Any of its calls may be made through `&mut self` instead. -/
lemma calls_variant {c : Cell V} {st : Option V} {qs qs' : List (Request V E)}
    (h : c.Represents st) (hq : Request.Harmless st qs)
    (hv : List.Forall₂ (fun q q' => q' = q ∨ q' = q.toMut) qs qs') (more : List (Request V E)) :
    c.calls (qs'++more) = c.calls (qs++more) := by
  induction hv generalizing c st with
  | nil => rfl
  | @cons q q' qs qs' hqq hv ih =>
    obtain ⟨c₁,hc₁,hr₁⟩ := call_refines h hq.1
    have hcall : c.call q' = c.call q := by
      rcases hqq with rfl | rfl
      · rfl
      · exact call_toMut h hq.1
    simp [calls,hcall,hc₁,ih hr₁ hq.2]

/-- A harmful sequence leaves a cell on which the next query panics. -/
lemma calls_harmful {c : Cell V} {st : Option V} {qs : List (Request V E)}
    (h : c.Represents st) (hq : ¬ Request.Harmless st qs) :
    c.calls (qs++[.get .exclusive]) = .error .panic := by
  induction qs generalizing c st with
  | nil => exact absurd trivial hq
  | cons q qs ih =>
    by_cases hp : st = none → q.poisons = false
    · obtain ⟨c₁,hc₁,hr₁⟩ := call_refines h hp
      have htail : ¬ Request.Harmless (q.spec st).2 qs := fun ht => hq ⟨hp,ht⟩
      simp [calls,hc₁,ih hr₁ htail,Except.map]
    · push Not at hp
      obtain ⟨rfl,hp⟩ := hp
      have hc := call_poisons h (by simpa using hp)
      simp [calls,hc,calls_poisoned qs (show c.dropBomb.lock = Flag.poisoned from rfl),Except.map]

end Cell

lemma Request.harmless_toMut (st : Option V) (qs : List (Request V E)) :
    Request.Harmless st (qs.map Request.toMut++[.get .exclusive]) := by
  induction qs generalizing st with
  | nil => exact ⟨fun _ => rfl,trivial⟩
  | cons q qs ih => exact ⟨fun _ => q.toMut_poisons,ih _⟩

lemma Request.harmless_append {st : Option V} {qs ps : List (Request V E)} :
    Request.Harmless st (qs++ps) ↔
      Request.Harmless st qs ∧ Request.Harmless (Request.final st qs) ps := by
  induction qs generalizing st with
  | nil => simp [Harmless,final]
  | cons q qs ih => simp [Harmless,final,ih,and_assoc]

/-- Every call of the sequence returns; after a call with a failing initialiser an initialisation
still succeeds; and going through `&mut self` instead changes no answer, then or later. -/
structure Usable (qs : List (Request V E)) : Prop where
  returns : ∃ r, (Cell.new : Cell V).calls qs = .ok r
  retry : ∀ ps q rs, qs = ps++q::rs → q.fails = true → ∀ m v, ∃ as c,
    (Cell.new : Cell V).calls (ps++[q,.getOrInit m v]) =
      .ok (as++[.value ((Request.final none (ps++[q])).getD v)],c)
  agree : ∀ qs', List.Forall₂ (fun q q' => q' = q ∨ q' = q.toMut) qs qs' → ∀ more,
    (Cell.new : Cell V).calls (qs'++more) = (Cell.new : Cell V).calls (qs++more)

lemma Request.answers_append (st : Option V) (qs ps : List (Request V E)) :
    Request.answers st (qs++ps) =
      Request.answers st qs++Request.answers (Request.final st qs) ps := by
  induction qs generalizing st with
  | nil => rfl
  | cons q qs ih => simp [answers,final,ih]

lemma usable_of_harmless {qs : List (Request V E)} (h : Request.Harmless none qs) :
    Usable qs where
  returns := by
    obtain ⟨c,hc,-⟩ := Cell.calls_refine Cell.new_represents h
    exact ⟨_,hc⟩
  retry := by
    intro ps q rs hqs _ m v
    have hq : Request.Harmless none (ps++[q]) := by
      rw [hqs,← List.singleton_append,← List.append_assoc] at h
      exact (Request.harmless_append.mp h).1
    have hall : Request.Harmless none ((ps++[q])++[.getOrInit m v]) :=
      Request.harmless_append.mpr ⟨hq,fun _ => rfl,trivial⟩
    obtain ⟨c,hc,-⟩ := Cell.calls_refine Cell.new_represents hall
    refine ⟨Request.answers none (ps++[q]),c,?_⟩
    rw [Request.answers_append] at hc
    simpa [Request.answers,Request.spec] using hc
  agree := fun _ hv more => Cell.calls_variant Cell.new_represents h hv more

lemma harmless_of_usable {qs : List (Request V E)} (h : Usable qs) :
    Request.Harmless none qs := by
  by_contra hn
  have hmut : List.Forall₂ (fun q q' : Request V E => q' = q ∨ q' = q.toMut) qs
      (qs.map Request.toMut) := by
    rw [List.forall₂_map_right_iff]
    exact List.forall₂_same.mpr fun q _ => .inr rfl
  obtain ⟨c,hc,-⟩ := Cell.calls_refine Cell.new_represents (Request.harmless_toMut none qs)
  have hagree := h.agree _ hmut [.get .exclusive]
  rw [hc,Cell.calls_harmful Cell.new_represents hn] at hagree
  cases hagree

namespace Lazy

/-- The lazy value has not been asked for through a shared path. -/
lemma forceAfter_fresh (c : Cell V) (v : V) (h : c.Represents none) {ms : List Mode}
    (hm : .shared ∉ ms) :
    (⟨c,some v⟩ : Lazy V).forceAfter ms = .ok (v,⟨⟨Flag.init,some v⟩,none⟩) := by
  induction ms with
  | nil => simp [forceAfter,force,Cell.access_empty _ h,Except.map]
  | cons m ms ih =>
    cases m with
    | shared => simp at hm
    | exclusive =>
      have hg : (⟨c,some v⟩ : Lazy V).get .exclusive = .ok (none,⟨c,some v⟩) := by
        simp [get,Cell.get,Cell.access_empty _ h,Cell.afterFailure,Except.map,Except.toOption]
      simp only [forceAfter,hg]
      exact ih (by simpa using hm)

lemma forceAfter_poisoned (l : Lazy V) (ms : List Mode) (h : l.onceLock.lock = Flag.poisoned) :
    l.forceAfter ms = .error .panic := by
  cases ms with
  | nil => simp [forceAfter,force,Cell.access_poisoned _ h,Except.map]
  | cons m ms => simp [forceAfter,get,Cell.get,Cell.access_poisoned _ h,Except.map]

/-- After any queries `force` returns the initialiser's value exactly when none was a shared one. -/
lemma forceAfter_iff (v : V) (ms : List Mode) :
    (∃ l, (new v).forceAfter ms = .ok (v,l)) ↔ .shared ∉ ms := by
  refine ⟨?_,fun h => ⟨_,forceAfter_fresh Cell.new v Cell.new_represents h⟩⟩
  suffices hp : ∀ c : Cell V, c.Represents none → .shared ∈ ms →
      (⟨c,some v⟩ : Lazy V).forceAfter ms = .error .panic by
    rintro ⟨l,hl⟩ hm
    rw [new,hp _ Cell.new_represents hm] at hl
    cases hl
  intro c h hm
  induction ms with
  | nil => cases hm
  | cons m ms ih =>
    have hg : (⟨c,some v⟩ : Lazy V).get m = .ok (none,⟨c.afterFailure m,some v⟩) := by
      simp [get,Cell.get,Cell.access_empty _ h,Except.map,Except.toOption]
    simp only [forceAfter,hg]
    cases m with
    | shared => exact forceAfter_poisoned _ ms rfl
    | exclusive => exact ih (by simpa using hm)

end Lazy

/-- A sequence of calls is usable exactly when no shared call with a failing initialiser meets an
empty cell; a `LazyLock` can be forced after `n` calls of `get` only when `n` is 0. -/
theorem usable_iff_harmless :
    (∀ qs : List (Request V E), Usable qs ↔ Request.Harmless none qs) ∧
      ∀ (v : V) (n : ℕ), (∃ l, (Lazy.new v).forceAfter (.replicate n .shared) = .ok (v,l)) ↔
        n = 0 := by
  refine ⟨fun qs => ⟨harmless_of_usable,usable_of_harmless⟩,fun v n => ?_⟩
  rw [Lazy.forceAfter_iff]
  simp [List.mem_replicate]

/-- Asking an empty cell poisons it: the `get_or_init` that follows panics. -/
theorem get_then_init_panics :
    (Cell.new : Cell ℕ).calls (E := Unit) [.get .shared,.getOrInit .shared 5] = .error .panic ∧
      ¬ Usable ([.get .shared] : List (Request ℕ Unit)) ∧
      (Lazy.new 5).forceAfter [.shared] = .error .panic := by
  refine ⟨rfl,?_,rfl⟩
  intro h
  have := harmless_of_usable h
  exact absurd (this.1 rfl) (by decide)

end WinterLily.Once
