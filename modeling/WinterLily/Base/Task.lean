import Mathlib.Logic.Relation

/-! Computations on a state that may stop early and keep the state reached so far, with the rules
for sequencing them. -/
namespace WinterLily

/-- A computation that answers or stops, and leaves a state either way. -/
def Task (ε σ α : Type) := σ → Except ε α × σ

namespace Task

variable {ε σ τ α β : Type}

def pure (a : α) : Task ε σ α := fun s => (.ok a,s)

def stop (e : ε) : Task ε σ α := fun s => (.error e,s)

def bind (x : Task ε σ α) (f : α → Task ε σ β) : Task ε σ β := fun s =>
  match x s with
  | (.ok a,t) => f a t
  | (.error e,t) => (.error e,t)

instance : Monad (Task ε σ) where
  pure := Task.pure
  bind := Task.bind

lemma bind_ok {x : Task ε σ α} {f : α → Task ε σ β} {s t : σ} {a : α} (h : x s = (.ok a,t)) :
    (x >>= f) s = f a t := by
  change Task.bind x f s = _
  simp only [Task.bind,h]

lemma bind_stop {x : Task ε σ α} {f : α → Task ε σ β} {s t : σ} {e : ε}
    (h : x s = (.error e,t)) : (x >>= f) s = (.error e,t) := by
  change Task.bind x f s = _
  simp only [Task.bind,h]

/-- A sequence that answers had a first part that answers. -/
lemma of_bind_ok {x : Task ε σ α} {f : α → Task ε σ β} {s u : σ} {b : β}
    (h : (x >>= f) s = (.ok b,u)) : ∃ a t, x s = (.ok a,t) ∧ f a t = (.ok b,u) := by
  rcases hx : x s with ⟨e | a,t⟩
  · rw [bind_stop hx] at h
    cases h
  · exact ⟨a,t,rfl,by rwa [bind_ok hx] at h⟩

/-- Whatever becomes of the computation, the state it leaves is related to the one it found. -/
def Within (R : σ → σ → Prop) (x : Task ε σ α) : Prop := ∀ s, R s (x s).2

section Within

variable {R : σ → σ → Prop}

lemma within_pure [Std.Refl R] (a : α) : Within R (Pure.pure a : Task ε σ α) :=
  fun s => Std.Refl.refl s

lemma within_stop [Std.Refl R] (e : ε) : Within R (stop e : Task ε σ α) :=
  fun s => Std.Refl.refl s

lemma within_bind [IsTrans σ R] {x : Task ε σ α} {f : α → Task ε σ β} (hx : Within R x)
    (hf : ∀ a, Within R (f a)) : Within R (x >>= f) := by
  intro s
  have h := hx s
  rcases he : x s with ⟨e | a,t⟩
  · rw [bind_stop he]
    rwa [he] at h
  · rw [bind_ok he]
    rw [he] at h
    exact IsTrans.trans _ _ _ h (hf a t)

end Within

/-- Wherever `x` answers, `y` answers the same from a related state and leaves a related one. -/
def Follows (R : σ → τ → Prop) (x : Task ε σ α) (y : Task ε τ α) : Prop :=
  ∀ s t, R s t → ∀ a s', x s = (.ok a,s') → ∃ t', y t = (.ok a,t') ∧ R s' t'

section Follows

variable {R : σ → τ → Prop}

lemma follows_pure (a : α) : Follows R (Pure.pure a : Task ε σ α) (Pure.pure a : Task ε τ α) := by
  intro s t h b s' hs
  cases hs
  exact ⟨t,rfl,h⟩

lemma follows_stop (e : ε) (y : Task ε τ α) : Follows R (stop e : Task ε σ α) y := by
  intro s t _ b s' hs
  cases hs

lemma follows_bind {x : Task ε σ α} {y : Task ε τ α} {f : α → Task ε σ β} {g : α → Task ε τ β}
    (hx : Follows R x y) (hf : ∀ a, Follows R (f a) (g a)) : Follows R (x >>= f) (y >>= g) := by
  intro s t h b s' hs
  obtain ⟨a,u,hu,hs⟩ := of_bind_ok hs
  obtain ⟨v,hv,hR⟩ := hx s t h a u hu
  obtain ⟨t',ht',hR'⟩ := hf a u v hR b s' hs
  exact ⟨t',by rw [bind_ok hv,ht'],hR'⟩

end Follows

end Task

end WinterLily
