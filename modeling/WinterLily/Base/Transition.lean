import Mathlib.Algebra.Order.BigOperators.Group.Finset
import Mathlib.Data.Fintype.BigOperators
import Mathlib.Data.Set.Card
import Mathlib.Logic.Relation

/-! Executable transition systems. A step is a partial function of the state and of the
label the scheduler picks; a run is a finite list of labels, and a label that is not enabled
stops it. Every safety argument in the development is one of the three rules below. -/
namespace WinterLily.Transition

variable {σ ε : Type*} (step : σ → ε → Option σ)

/-- The state after a whole schedule, when every label of it was enabled. -/
def run : σ → List ε → Option σ
  | s,[] => some s
  | s,e::es => (step s e).bind fun t => run t es

@[simp] theorem run_nil (s : σ) : run step s [] = some s := rfl

@[simp] theorem run_cons (s : σ) (e : ε) (es : List ε) :
    run step s (e::es) = (step s e).bind fun t => run step t es := rfl

variable {step} in
/-- One step in front of a run. -/
theorem run_cons_of {s t u : σ} {e : ε} {es : List ε} (h : step s e = some t)
    (ht : run step t es = some u) : run step s (e::es) = some u := by
  rw [run_cons,h]
  exact ht

theorem run_append (s : σ) (es fs : List ε) :
    run step s (es++fs) = (run step s es).bind fun t => run step t fs := by
  induction es generalizing s with
  | nil => rfl
  | cons e es ih =>
    cases h : step s e with
    | none => simp [h]
    | some t => simp [h,ih]

/-- Each step actually taken along the schedule meets `C` in the state it starts from. -/
def Guarded (C : σ → ε → Prop) : σ → List ε → Prop
  | _,[] => True
  | s,e::es => ∀ t, step s e = some t → C s e ∧ Guarded C t es

/-- Each state visited along the schedule, the first included, satisfies `P`. -/
def Always (P : σ → Prop) : σ → List ε → Prop
  | s,[] => P s
  | s,e::es => P s ∧ ∀ t, step s e = some t → Always P t es

/-- A guard that can be tested in each state can be tested along a schedule. -/
instance decidableGuarded (C : σ → ε → Prop) [∀ s e, Decidable (C s e)] :
    ∀ s es, Decidable (Guarded step C s es)
  | _,[] => isTrue trivial
  | s,e::es =>
    match h : step s e with
    | none => isTrue fun t ht => by rw [h] at ht; contradiction
    | some t =>
      have := decidableGuarded C t es
      decidable_of_iff (C s e ∧ Guarded step C t es)
        ⟨fun hc u hu => by rw [h] at hu; cases hu; exact hc,fun hc => hc t h⟩

/-- Each step attempted along the schedule meets `C`, whether or not it then goes through. -/
def Admits (C : σ → ε → Prop) : σ → List ε → Prop
  | _,[] => True
  | s,e::es => C s e ∧ ∀ t, step s e = some t → Admits C t es

instance decidableAdmits (C : σ → ε → Prop) [∀ s e, Decidable (C s e)] :
    ∀ s es, Decidable (Admits step C s es)
  | _,[] => isTrue trivial
  | s,e::es =>
    match h : step s e with
    | none => decidable_of_iff (C s e)
        ⟨fun hc => ⟨hc,fun t ht => by rw [h] at ht; contradiction⟩,fun hc => hc.1⟩
    | some t =>
      have := decidableAdmits C t es
      decidable_of_iff (C s e ∧ Admits step C t es)
        ⟨fun hc => ⟨hc.1,fun u hu => by rw [h] at hu; cases hu; exact hc.2⟩,
          fun hc => ⟨hc.1,hc.2 t h⟩⟩

variable {step}

/-- When every step that meets `C` goes through and follows the abstract one, so does a run. -/
theorem run_simulates {τ : Type*} {R : σ → τ → Prop} (spec : τ → ε → τ) {C : σ → ε → Prop}
    (hstep : ∀ s a e, R s a → C s e → ∃ t, step s e = some t ∧ R t (spec a e)) {s : σ} {a : τ}
    {es : List ε} (hs : R s a) (hC : Admits step C s es) :
    ∃ t, run step s es = some t ∧ R t (es.foldl spec a) := by
  induction es generalizing s a with
  | nil => exact ⟨s,rfl,hs⟩
  | cons e es ih =>
    obtain ⟨t,ht,hR⟩ := hstep s a e hs hC.1
    obtain ⟨u,hu,hR⟩ := ih hR (hC.2 t ht)
    exact ⟨u,by simp [ht,hu],hR⟩

theorem Always.head {P : σ → Prop} {s : σ} {es : List ε} (h : Always step P s es) : P s := by
  cases es with
  | nil => exact h
  | cons e es => exact h.1

theorem Always.last {P : σ → Prop} {s t : σ} {es : List ε} (h : Always step P s es)
    (hrun : run step s es = some t) : P t := by
  induction es generalizing s with
  | nil => cases hrun; exact h
  | cons e es ih =>
    obtain ⟨u,hu,ht⟩ := Option.bind_eq_some_iff.mp hrun
    exact ih (h.2 u hu) ht

/-- What holds along a whole schedule holds along the part of it after some run. -/
theorem Always.append {P : σ → Prop} {s t : σ} {es fs : List ε} (h : Always step P s (es++fs))
    (hrun : run step s es = some t) : Always step P t fs := by
  induction es generalizing s with
  | nil => cases hrun; exact h
  | cons e es ih =>
    obtain ⟨u,hu,ht⟩ := Option.bind_eq_some_iff.mp hrun
    exact ih (h.2 u hu) ht

/-- An inductive invariant holds at the end of every run. -/
theorem run_invariant {I : σ → Prop}
    (hstep : ∀ s e t, I s → step s e = some t → I t) {s t : σ} {es : List ε}
    (hs : I s) (h : run step s es = some t) : I t := by
  induction es generalizing s with
  | nil => cases h; exact hs
  | cons e es ih =>
    obtain ⟨u,hu,ht⟩ := Option.bind_eq_some_iff.mp h
    exact ih (hstep s e u hs hu) ht

/-- An invariant that only the steps meeting `C` keep holds along every guarded run. -/
theorem always_of_guarded {I P : σ → Prop} {C : σ → ε → Prop}
    (hstep : ∀ s e t, I s → C s e → step s e = some t → I t) (hP : ∀ s, I s → P s)
    {s : σ} {es : List ε} (hs : I s) (h : Guarded step C s es) : Always step P s es := by
  induction es generalizing s with
  | nil => exact hP s hs
  | cons e es ih =>
    refine ⟨hP s hs,fun t ht => ?_⟩
    obtain ⟨hc,htail⟩ := h t ht
    exact ih (hstep s e t hs hc ht) htail

/-- When a step that misses `C` always lands outside `P`, the runs that stay inside `P` are
exactly the guarded ones; `D` is what is known of every step from the outset. -/
theorem always_iff_guarded_within {I P : σ → Prop} {C D : σ → ε → Prop}
    (hstep : ∀ s e t, I s → D s e → C s e → step s e = some t → I t) (hP : ∀ s, I s → P s)
    (hbad : ∀ s e t, I s → D s e → ¬ C s e → step s e = some t → ¬ P t)
    {s : σ} {es : List ε} (hs : I s) (hD : Guarded step D s es) :
    Always step P s es ↔ Guarded step C s es := by
  induction es generalizing s with
  | nil => exact ⟨fun _ => trivial,fun _ => hP s hs⟩
  | cons e es ih =>
    constructor
    · intro h t ht
      obtain ⟨hd,htail⟩ := hD t ht
      have hC : C s e := by
        by_contra hC
        exact hbad s e t hs hd hC ht (h.2 t ht).head
      exact ⟨hC,(ih (hstep s e t hs hd hC ht) htail).mp (h.2 t ht)⟩
    · intro h
      refine ⟨hP s hs,fun t ht => ?_⟩
      obtain ⟨hd,htail⟩ := hD t ht
      exact (ih (hstep s e t hs hd (h t ht).1 ht) htail).mpr (h t ht).2

theorem guarded_of_mem {C : σ → ε → Prop} {es : List ε} (h : ∀ e ∈ es, ∀ s, C s e) (s : σ) :
    Guarded step C s es := by
  induction es generalizing s with
  | nil => trivial
  | cons e es ih => exact fun t _ => ⟨h e (by simp) s,ih (fun f hf => h f (by simp [hf])) t⟩

theorem always_iff_guarded {I P : σ → Prop} {C : σ → ε → Prop}
    (hstep : ∀ s e t, I s → C s e → step s e = some t → I t) (hP : ∀ s, I s → P s)
    (hbad : ∀ s e t, I s → ¬ C s e → step s e = some t → ¬ P t)
    {s : σ} {es : List ε} (hs : I s) : Always step P s es ↔ Guarded step C s es :=
  always_iff_guarded_within (D := fun _ _ => True) (fun s e t hi _ => hstep s e t hi) hP
    (fun s e t hi _ => hbad s e t hi) hs (guarded_of_mem (fun _ _ _ => trivial) s)

section Termination

variable (rank : σ → ℕ)

/-- A run is no longer than the rank it uses up. -/
theorem run_length_le (hrank : ∀ s e t, step s e = some t → rank t < rank s) {s t : σ}
    {es : List ε} (h : run step s es = some t) : es.length+rank t ≤ rank s := by
  induction es generalizing s with
  | nil => cases h; simp
  | cons e es ih =>
    obtain ⟨u,hu,ht⟩ := Option.bind_eq_some_iff.mp h
    have hlt := hrank s e u hu
    have hle := ih ht
    rw [List.length_cons]
    omega

/-- When no state short of the goal is stuck, the goal is reached. -/
theorem exists_run_goal {I G : σ → Prop} (hrank : ∀ s e t, step s e = some t → rank t < rank s)
    (hstep : ∀ s e t, I s → step s e = some t → I t)
    (hmove : ∀ s, I s → G s ∨ ∃ e t, step s e = some t) {s : σ} (hs : I s) :
    ∃ es t, run step s es = some t ∧ G t := by
  induction hn : rank s using Nat.strong_induction_on generalizing s with
  | _ n ih =>
    cases hmove s hs with
    | inl hgoal => exact ⟨[],s,rfl,hgoal⟩
    | inr hex =>
      obtain ⟨e,u,hu⟩ := hex
      obtain ⟨es,t,ht,hgoal⟩ := ih (rank u) (hn ▸ hrank s e u hu) (hstep s e u hs hu) rfl
      exact ⟨e::es,t,by rw [run_cons,hu]; exact ht,hgoal⟩

end Termination

section Acyclic

open Relation

variable {α : Type*} {R : α → α → Prop}

/-- Induction along a relation that reaches finitely many elements and comes back to none. -/
theorem acyclic_induction {P : α → Prop} {a : α} (hfin : {b | TransGen R a b}.Finite)
    (hacyclic : ∀ b, ReflTransGen R a b → ¬ TransGen R b b)
    (h : ∀ b, ReflTransGen R a b → (∀ c, R b c → P c) → P b) : P a := by
  have hall : ∀ b, ReflTransGen R a b → P b := by
    intro b hb
    induction hn : {c | TransGen R b c}.ncard using Nat.strong_induction_on generalizing b with
    | _ n ih =>
      refine h b hb fun c hc => ih _ ?_ c (hb.tail hc) rfl
      have hless : {d | TransGen R c d} ⊂ {d | TransGen R b d} := by
        refine ⟨fun d hd => TransGen.head hc hd,fun hsub => ?_⟩
        exact hacyclic c (hb.tail hc) (hsub (TransGen.single hc))
      rw [← hn]
      exact Set.ncard_lt_ncard hless (hfin.subset fun d hd => TransGen.trans_right hb hd)
  exact hall a .refl

end Acyclic

section Threads

variable {ι α : Type*} [Fintype ι]

/-- Replacing one thread moves a sum over all threads by that thread's difference. -/
theorem sum_update_add [DecidableEq ι] (g : α → ℕ) (f : ι → α) (i : ι) (a : α) :
    (∑ j, g (Function.update f i a j)) + g (f i) = (∑ j, g (f j)) + g a := by
  have hs : (fun j => g (Function.update f i a j)) =
      Function.update (fun j => g (f j)) i (g a) := by
    funext j
    by_cases h : j = i
    · subst j; simp
    · simp [h]
  rw [hs,Finset.sum_update_of_mem (Finset.mem_univ i),
    ← Finset.sum_sdiff (Finset.subset_univ {i})]
  simp only [Finset.sum_singleton]
  omega

/-- One thread contributes at most the sum over all of them. -/
theorem le_sum_threads (g : α → ℕ) (f : ι → α) (i : ι) : g (f i) ≤ ∑ j, g (f j) :=
  Finset.single_le_sum (f := fun j => g (f j)) (fun _ _ => Nat.zero_le _) (Finset.mem_univ i)

end Threads

section Ownership

variable {ι ρ : Type*}

/-- No two threads own the same thing. -/
def Exclusive (owns : ι → ρ → Prop) : Prop := ∀ i j x, owns i x → owns j x → i = j

theorem Exclusive.not_owns {owns : ι → ρ → Prop} (h : Exclusive owns) {i j : ι} {x : ρ}
    (hi : owns i x) (hj : j ≠ i) : ¬ owns j x := fun hx => hj (h j i x hx hi)

/-- A step of thread `i` after which it owns only what no other thread did. -/
theorem Exclusive.update {owns owns' : ι → ρ → Prop} (h : Exclusive owns) (i : ι)
    (hother : ∀ j ≠ i, ∀ x, owns' j x → owns j x)
    (hself : ∀ x, owns' i x → ∀ j ≠ i, ¬ owns j x) : Exclusive owns' := by
  intro j k x hj hk
  by_cases hji : j = i
  · by_cases hki : k = i
    · rw [hji,hki]
    · exact absurd (hother k hki x hk) (hself x (hji ▸ hj) k hki)
  · by_cases hki : k = i
    · exact absurd (hother j hji x hj) (hself x (hki ▸ hk) j hji)
    · exact h j k x (hother j hji x hj) (hother k hki x hk)

end Ownership

end WinterLily.Transition
