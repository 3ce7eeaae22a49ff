import Mathlib.Data.List.Basic

/-! Computations on a state that return a value, panic, or are still running when their rounds are
used up, and the logs that they keep in the state. -/
namespace WinterLily.Effect

inductive Stop (α : Type*)
  | value (a : α)
  | panic
  | running
  deriving DecidableEq, Repr

lemma Stop.value_ne_panic {α : Type*} (a : α) : Stop.value a ≠ .panic := by simp

lemma Stop.running_ne_panic {α : Type*} : (Stop.running : Stop α) ≠ .panic := by simp

/-- How a computation ended, and in which state. -/
structure Outcome (σ α : Type*) where
  result : Stop α
  state : σ
  deriving DecidableEq, Repr

/-- A log in the state: what is expected of an entry, the condition for it, and the entries that a
state allows. -/
structure Ledger (σ τ : Type*) where
  log : σ → List τ
  good : τ → Prop
  fits : τ → Prop
  allows : σ → List τ → Prop
  allows_nil : ∀ s, allows s []

/-- The entries made from one state to another. -/
def Ledger.since {σ τ : Type*} (L : Ledger σ τ) (s t : σ) : List τ := (L.log t).drop (L.log s).length

namespace Outcome

variable {σ α β ε τ : Type*}

def pure (a : α) (s : σ) : Outcome σ α := ⟨.value a,s⟩

def panic (s : σ) : Outcome σ α := ⟨.panic,s⟩

def running (s : σ) : Outcome σ α := ⟨.running,s⟩

def andThen (x : Outcome σ α) (f : α → σ → Outcome σ β) : Outcome σ β :=
  match x.result with
  | .value a => f a x.state
  | .panic => panic x.state
  | .running => running x.state

/-- `?`: an error is returned at once. -/
def andTry (x : Outcome σ (Except ε α)) (f : α → σ → Outcome σ (Except ε β)) :
    Outcome σ (Except ε β) :=
  x.andThen fun r s =>
    match r with
    | .ok a => f a s
    | .error e => pure (.error e) s

@[simp] lemma pure_andThen (a : α) (s : σ) (f : α → σ → Outcome σ β) :
    (pure a s).andThen f = f a s := rfl

@[simp] lemma panic_andThen (s : σ) (f : α → σ → Outcome σ β) :
    (panic s).andThen f = panic s := rfl

lemma pure_inj {a b : α} {s : σ} : pure a s = pure b s ↔ a = b := by simp [pure]

lemma panic_ne_pure (a : α) (s t : σ) : panic s ≠ pure a t := by simp [panic,pure]

lemma pure_ok_andTry (a : α) (s : σ) (f : α → σ → Outcome σ (Except ε β)) :
    (pure (.ok a) s).andTry f = f a s := rfl

lemma andTry_assoc {γ : Type*} (x : Outcome σ (Except ε α)) (f : α → σ → Outcome σ (Except ε β))
    (g : β → σ → Outcome σ (Except ε γ)) :
    (x.andTry f).andTry g = x.andTry fun a s => (f a s).andTry g := by
  obtain ⟨result,s⟩ := x
  rcases result with (e | a) | _ | _ <;> rfl

lemma andTry_state {r : Stop (Except ε α)} (h : ∀ a, r ≠ .value (.ok a)) (s : σ)
    (f : α → σ → Outcome σ (Except ε β)) : (andTry ⟨r,s⟩ f).state = s := by
  rcases r with (e | a) | _ | _
  · rfl
  · exact absurd rfl (h a)
  · rfl
  · rfl

section ForEach

/-- A computation for each element in turn, up to the first error. -/
def forEach (f : α → σ → Outcome σ (Except ε Unit)) : List α → σ → Outcome σ (Except ε Unit)
  | [],s => pure (.ok ()) s
  | a::as,s => (f a s).andTry fun _ s => forEach f as s

variable (f : α → σ → Outcome σ (Except ε Unit))

lemma forEach_append (as bs : List α) (s : σ) :
    forEach f (as++bs) s = (forEach f as s).andTry fun _ s => forEach f bs s := by
  induction as generalizing s with
  | nil => rfl
  | cons a as ih =>
    rw [List.cons_append,forEach,forEach,andTry_assoc]
    simp only [ih]

/-- Elements that nothing is done for can be left out. -/
lemma forEach_filter (p : α → Bool) (as : List α) (s : σ) :
    forEach (fun a s => if p a = true then f a s else pure (.ok ()) s) as s =
      forEach f (as.filter p) s := by
  induction as generalizing s with
  | nil => rfl
  | cons a as ih =>
    rw [forEach]
    by_cases ha : p a = true
    · rw [if_pos ha,List.filter_cons_of_pos ha,forEach]
      simp only [ih]
    · rw [if_neg ha,List.filter_cons_of_neg ha,pure_ok_andTry,ih]

end ForEach

section Returns

variable {P : α → σ → Prop} {Q : β → σ → Prop}

/-- Whenever the computation returns, its value and state are as stated. -/
def Returns (x : Outcome σ α) (P : α → σ → Prop) : Prop := ∀ a, x.result = .value a → P a x.state

lemma returns_pure {a : α} {s : σ} (h : P a s) : Returns (pure a s) P := by
  intro b hb
  cases hb
  exact h

lemma returns_panic (s : σ) : Returns (panic s : Outcome σ α) P := by
  intro a h
  cases h

lemma returns_running (s : σ) : Returns (running s : Outcome σ α) P := by
  intro a h
  cases h

lemma Returns.of_eq {x : Outcome σ α} (hx : Returns x P) {a : α} {s : σ} (h : x = pure a s) :
    P a s := by
  subst h
  exact hx a rfl

lemma Returns.mono {P Q : α → σ → Prop} {x : Outcome σ α} (hx : Returns x P)
    (hPQ : ∀ a s, P a s → Q a s) : Returns x Q :=
  fun a ha => hPQ a x.state (hx a ha)

lemma Returns.andThen {x : Outcome σ α} {f : α → σ → Outcome σ β} (hx : Returns x P)
    (hf : ∀ a s, P a s → Returns (f a s) Q) : Returns (x.andThen f) Q := by
  obtain ⟨result,s⟩ := x
  cases result with
  | value a => exact hf a s (hx a rfl)
  | panic => exact returns_panic s
  | running => exact returns_running s

lemma Returns.andTry {P : Except ε α → σ → Prop} {Q : Except ε β → σ → Prop}
    {x : Outcome σ (Except ε α)} {f : α → σ → Outcome σ (Except ε β)} (hx : Returns x P)
    (herror : ∀ e s, P (.error e) s → Q (.error e) s)
    (hf : ∀ a s, P (.ok a) s → Returns (f a s) Q) : Returns (x.andTry f) Q := by
  refine hx.andThen fun r s hr => ?_
  cases r with
  | ok a => exact hf a s hr
  | error e => exact returns_pure (herror e s hr)

end Returns

section Log

/-- A computation adds entries to the log. It panics only at one that does not fit or is not
allowed; otherwise the good entries are those that fit, and the rest of what was allowed stays. -/
def Accounts (L : Ledger σ τ) (s : σ) (o : Outcome σ α) : Prop :=
  ∃ us, L.log o.state = L.log s++us ∧
    (o.result = .panic → ¬ ((∀ u ∈ us, L.fits u) ∧ L.allows s us)) ∧
    (o.result ≠ .panic → (∀ u ∈ us, L.good u ↔ L.fits u) ∧
      ∀ vs, L.allows s (us++vs) ↔ L.allows o.state vs)

variable {L : Ledger σ τ} {s t : σ} {us : List τ} {a : α} {x : Outcome σ α}

lemma Accounts.congr (hx : Accounts L s x) (hlog : L.log s = L.log t)
    (hallows : L.allows s = L.allows t) : Accounts L t x := by
  rw [Accounts,hlog,hallows] at hx
  exact hx

lemma accounts_of_value {r : Stop α} (h : L.log t = L.log s++us) (hr : r ≠ .panic)
    (hus : ∀ u ∈ us, L.good u ↔ L.fits u)
    (hallows : ∀ vs, L.allows s (us++vs) ↔ L.allows t vs) : Accounts L s ⟨r,t⟩ :=
  ⟨us,h,fun hpanic => absurd hpanic hr,fun _ => ⟨hus,hallows⟩⟩

lemma accounts_pure (hlog : L.log t = L.log s) (hallows : L.allows t = L.allows s) :
    Accounts L s (pure a t) := by
  refine accounts_of_value (hlog.trans (List.append_nil _).symm) (Stop.value_ne_panic a) (by simp)
    fun vs => ?_
  rw [hallows,List.nil_append]

lemma accounts_running (hlog : L.log t = L.log s) (hallows : L.allows t = L.allows s) :
    Accounts L s (running t : Outcome σ α) := by
  refine accounts_of_value (hlog.trans (List.append_nil _).symm) Stop.running_ne_panic (by simp)
    fun vs => ?_
  rw [hallows,List.nil_append]

lemma accounts_panic (us : List τ) (h : L.log t = L.log s++us)
    (hus : ¬ ((∀ u ∈ us, L.fits u) ∧ L.allows s us)) : Accounts L s (panic t : Outcome σ α) :=
  ⟨us,h,fun _ => hus,fun hne => absurd rfl hne⟩

/-- Entries that are as they should be, and a computation from there. -/
lemma Accounts.after (hx : Accounts L t x) (us : List τ) (h : L.log t = L.log s++us)
    (hus : ∀ u ∈ us, L.good u ↔ L.fits u)
    (hallows : ∀ vs, L.allows s (us++vs) ↔ L.allows t vs) : Accounts L s x := by
  obtain ⟨vs,hvs,hpanic,hvalue⟩ := hx
  refine ⟨us++vs,?_,fun hx hfits => ?_,fun hx => ⟨fun u hu => ?_,fun ws => ?_⟩⟩
  · rw [hvs,h,List.append_assoc]
  · rw [List.forall_mem_append,hallows] at hfits
    exact hpanic hx ⟨hfits.1.2,hfits.2⟩
  · rcases List.mem_append.mp hu with hu | hu
    · exact hus u hu
    · exact (hvalue hx).1 u hu
  · rw [List.append_assoc,hallows,(hvalue hx).2]

lemma Accounts.andThen {f : α → σ → Outcome σ β} (hx : Accounts L s x)
    (hf : ∀ a t, Accounts L t (f a t)) : Accounts L s (x.andThen f) := by
  obtain ⟨result,t⟩ := x
  obtain ⟨us,hus,hpanic,hvalue⟩ := hx
  cases result with
  | value a =>
    obtain ⟨hgood,hallows⟩ := hvalue (Stop.value_ne_panic a)
    exact (hf a t).after us hus hgood hallows
  | panic => exact accounts_panic us hus (hpanic rfl)
  | running =>
    obtain ⟨hgood,hallows⟩ := hvalue Stop.running_ne_panic
    exact accounts_of_value hus Stop.running_ne_panic hgood hallows

lemma Accounts.andTry {x : Outcome σ (Except ε α)} {f : α → σ → Outcome σ (Except ε β)}
    (hx : Accounts L s x) (hf : ∀ a t, Accounts L t (f a t)) : Accounts L s (x.andTry f) := by
  refine hx.andThen fun r t => ?_
  cases r with
  | ok a => exact hf a t
  | error e => exact accounts_pure rfl rfl

/-- A computation goes well exactly if its entries fit and are allowed. -/
lemma Accounts.safe_iff (hx : Accounts L s x) :
    (x.result ≠ .panic ∧ ∀ u ∈ L.since s x.state, L.good u) ↔
      (∀ u ∈ L.since s x.state, L.fits u) ∧ L.allows s (L.since s x.state) := by
  obtain ⟨us,hus,hpanic,hvalue⟩ := hx
  have hsince : L.since s x.state = us := by rw [Ledger.since,hus,List.drop_left]
  rw [hsince]
  by_cases hx : x.result = .panic
  · exact iff_of_false (fun h => h.1 hx) (hpanic hx)
  · obtain ⟨hgood,hallows⟩ := hvalue hx
    have hall : L.allows s us := by
      rw [← List.append_nil us,hallows]
      exact L.allows_nil _
    rw [and_iff_right hx,and_iff_left hall]
    exact forall₂_congr hgood

end Log

end Outcome

end WinterLily.Effect
