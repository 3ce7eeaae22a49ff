import Mathlib.Order.BooleanAlgebra.Set
import Mathlib.Tactic.Tauto

/-! Resources that a computation holds. Some are taken for good, the others have to be given back:
what is held in the end is compared with what was held before and what is kept. -/
namespace WinterLily.Resources

variable {R : Type*}

/-- The resources held, and those kept for good. -/
structure Holdings (R : Type*) where
  held : Set R
  kept : Set R

namespace Holdings

variable {s t u : Holdings R} {r : R} {ret : Set R} {c c' : Prop}

/-- What may be held in the end: what was held, and what has been taken for good since. -/
def owed (s t : Holdings R) : Set R := s.held ∪ (t.kept \ s.kept)

/-- What is kept stays kept, and was not in use before. -/
structure Grows (s t : Holdings R) : Prop where
  kept_subset : s.kept ⊆ t.kept
  fresh : ∀ r ∈ t.kept, r ∉ s.kept → r ∉ s.held

/-- A resource is taken that was not held. -/
structure Takes (r : R) (s t : Holdings R) : Prop extends Grows s t where
  notMem : r ∉ owed s t
  held_eq : t.held = insert r (owed s t)

/-- What was held is still held, and nothing else if the condition holds. -/
structure Tries (c : Prop) (s t : Holdings R) : Prop extends Grows s t where
  owed_subset : owed s t ⊆ t.held
  held_eq : c → t.held = owed s t

/-- The resource `r` is given back if the condition holds; if not, and it matters, it is still
held. -/
structure Uses (r : R) (c matters : Prop) (s t : Holdings R) : Prop extends Grows s t where
  owed_subset : owed s t \ {r} ⊆ t.held
  held_eq : c → t.held = owed s t \ {r}
  mem_held : ¬ c → matters → r ∈ t.held

/-- What was held is still held, and nothing but `ret` is added to it exactly if the condition
holds. -/
structure Pays (ret : Set R) (c : Prop) (s t : Holdings R) : Prop extends Grows s t where
  owed_subset : owed s t ∪ ret ⊆ t.held
  disjoint : ∀ r ∈ ret, r ∉ owed s t
  held_eq_iff : c ↔ t.held = owed s t ∪ ret

lemma Grows.refl (s : Holdings R) : Grows s s := ⟨fun _ h => h,fun _ h h' => absurd h h'⟩

lemma owed_self (s : Holdings R) : owed s s = s.held := by
  rw [owed,Set.sdiff_self,Set.union_empty]

lemma Grows.trans (h : Grows s t) (hheld : s.held ⊆ t.held) (h' : Grows t u) : Grows s u := by
  refine ⟨fun r hr => h'.kept_subset (h.kept_subset hr),fun r hr hnew => ?_⟩
  by_cases hmid : r ∈ t.kept
  · exact h.fresh r hmid hnew
  · exact fun hr' => h'.fresh r hr hmid (hheld hr')

/-- The debts of two parts add up. -/
lemma owed_trans (h : Grows s t) (h' : Grows t u) :
    owed s t ∪ (u.kept \ t.kept) = owed s u := by
  ext r
  have hst := @h.kept_subset r
  have htu := @h'.kept_subset r
  simp only [owed,Set.mem_union,Set.mem_sdiff]
  tauto

lemma subset_owed (s t : Holdings R) : s.held ⊆ owed s t := Set.subset_union_left

lemma Tries.refl (c : Prop) (s : Holdings R) : Tries c s s :=
  ⟨Grows.refl s,(owed_self s).subset,fun _ => (owed_self s).symm⟩

/-- A resource that is taken for good. -/
lemma tries_keep (hheld : r ∉ s.held) (hkept : r ∉ s.kept) :
    Tries True s ⟨insert r s.held,insert r s.kept⟩ := by
  have howed : owed s ⟨insert r s.held,insert r s.kept⟩ = insert r s.held := by
    rw [owed,Set.insert_sdiff_of_notMem _ hkept,Set.sdiff_self,Set.union_insert,Set.union_empty]
  refine ⟨⟨Set.subset_insert r _,fun x hx hnew => ?_⟩,howed.subset,fun _ => howed.symm⟩
  rcases hx with rfl | hx
  · exact hheld
  · exact absurd hx hnew

lemma Tries.held_subset (h : Tries c s t) : s.held ⊆ t.held :=
  fun _ hr => h.owed_subset (subset_owed s t hr)

lemma Tries.owed_eq (h : Tries True s t) (h' : Grows t u) : owed t u = owed s u := by
  rw [← owed_trans h.toGrows h',← h.held_eq trivial,owed]

lemma Tries.trans (h : Tries True s t) (h' : Tries c t u) : Tries c s u := by
  have howed := h.owed_eq h'.toGrows
  exact ⟨h.toGrows.trans h.held_subset h'.toGrows,howed ▸ h'.owed_subset,
    fun hc => howed ▸ h'.held_eq hc⟩

lemma Tries.mono (h : Tries True s t) : Tries c s t :=
  ⟨h.toGrows,h.owed_subset,fun _ => h.held_eq trivial⟩

lemma Tries.takes (h : Tries True s t) (h' : Takes r t u) : Takes r s u := by
  have howed := h.owed_eq h'.toGrows
  exact ⟨h.toGrows.trans h.held_subset h'.toGrows,howed ▸ h'.notMem,howed ▸ h'.held_eq⟩

lemma Tries.uses {matters : Prop} (h : Tries True s t) (h' : Uses r c matters t u) :
    Uses r c matters s u := by
  have howed := h.owed_eq h'.toGrows
  exact ⟨h.toGrows.trans h.held_subset h'.toGrows,howed ▸ h'.owed_subset,
    fun hc => howed ▸ h'.held_eq hc,h'.mem_held⟩

/-- A failure leaves a resource in use. -/
lemma Tries.fails {matters : Prop} (h : Tries False s t) (hr : r ∈ s.held) :
    Uses r False matters s t :=
  ⟨h.toGrows,fun _ hx => h.owed_subset hx.1,False.elim,fun _ _ => h.held_subset hr⟩

lemma Takes.held_subset (h : Takes r s t) : s.held ⊆ t.held := by
  rw [h.held_eq]
  exact fun x hx => Set.mem_insert_of_mem r (subset_owed s t hx)

/-- What is owed once a resource has been taken. -/
lemma Takes.owed_eq (h : Takes r s t) (h' : Grows t u) :
    owed t u = insert r (owed s u) ∧ r ∉ owed s u := by
  have hmem : r ∈ t.held := h.held_eq ▸ Set.mem_insert r _
  refine ⟨?_,?_⟩
  · rw [← owed_trans h.toGrows h',owed,h.held_eq,Set.insert_union]
  · rw [← owed_trans h.toGrows h']
    rintro (hr | ⟨hr,hnew⟩)
    · exact h.notMem hr
    · exact h'.fresh r hr hnew hmem

/-- A resource taken and given back. -/
lemma Takes.tries (h : Takes r s t) {matters : Prop} (h' : Uses r c matters t u) : Tries c s u := by
  obtain ⟨howed,hr⟩ := h.owed_eq h'.toGrows
  have hdiff : owed t u \ {r} = owed s u := by
    rw [howed,Set.insert_sdiff_of_mem _ (Set.mem_singleton r),Set.sdiff_singleton_eq_self hr]
  exact ⟨h.toGrows.trans h.held_subset h'.toGrows,hdiff ▸ h'.owed_subset,
    fun hc => hdiff ▸ h'.held_eq hc⟩

/-- The state without a resource. -/
def release (r : R) (s : Holdings R) : Holdings R := ⟨s.held \ {r},s.kept⟩

/-- A resource held over a computation and then given back. -/
lemma Takes.release (h : Takes r s t) (h' : Tries c t u) : Tries c s (u.release r) := by
  obtain ⟨howed,hr⟩ := h.owed_eq h'.toGrows
  have hgrows := h.toGrows.trans h.held_subset h'.toGrows
  have heq : owed s (u.release r) = owed s u := rfl
  refine ⟨⟨hgrows.kept_subset,hgrows.fresh⟩,?_,fun hc => ?_⟩
  · rw [heq]
    refine fun x hx => ⟨h'.owed_subset ?_,?_⟩
    · rw [howed]
      exact Set.mem_insert_of_mem r hx
    · rintro rfl
      exact hr hx
  · change u.held \ {r} = owed s u
    rw [h'.held_eq hc,howed,Set.insert_sdiff_of_mem _ (Set.mem_singleton r),
      Set.sdiff_singleton_eq_self hr]

lemma Tries.pays (h : Tries True s t) : Pays ∅ True s t :=
  ⟨h.toGrows,by simpa using h.owed_subset,by simp,by simpa using h.held_eq trivial⟩

/-- A resource that is given back in the right case only. -/
lemma Takes.pays (h : Takes r s t) (h' : Uses r c True t u) : Pays ∅ c s u := by
  have htries := h.tries h'
  refine ⟨htries.toGrows,by simpa using htries.owed_subset,by simp,?_⟩
  rw [Set.union_empty]
  refine ⟨htries.held_eq,fun heq => ?_⟩
  by_contra hc
  exact (h.owed_eq h'.toGrows).2 (heq ▸ h'.mem_held hc trivial)

/-- A resource that is not given back. -/
lemma Takes.leaks (h : Takes r s t) : Pays ∅ False s t := by
  refine ⟨h.toGrows,?_,by simp,?_⟩
  · rw [Set.union_empty,h.held_eq]
    exact Set.subset_insert r _
  · rw [Set.union_empty,h.held_eq,false_iff]
    exact fun heq => h.notMem (heq ▸ Set.mem_insert r _)

/-- A resource that is handed out. -/
lemma Takes.hands (h : Takes r s t) : Pays {r} True s t := by
  have heq : t.held = owed s t ∪ {r} := by rw [h.held_eq,Set.union_singleton]
  exact ⟨h.toGrows,heq.symm.subset,by simpa using h.notMem,iff_of_true trivial heq⟩

/-- A resource that an earlier part has left over is left over in the end. -/
lemma Pays.trans (h : Pays ∅ c s t) (h' : Pays ret c' t u) : Pays ret (c ∧ c') s u := by
  have hheld : s.held ⊆ t.held := fun r hr => h.owed_subset (.inl (subset_owed s t hr))
  have hsub : owed s u ⊆ owed t u := by
    rw [← owed_trans h.toGrows h'.toGrows]
    exact Set.union_subset_union_left _ fun r hr => h.owed_subset (.inl hr)
  have hsame : t.held = owed s t → owed t u = owed s u := by
    intro heq
    rw [← owed_trans h.toGrows h'.toGrows,← heq,owed]
  refine ⟨h.toGrows.trans hheld h'.toGrows,?_,fun r hr hr' => h'.disjoint r hr (hsub hr'),?_⟩
  · exact fun r hr => h'.owed_subset (hr.imp (@hsub r) id)
  · have hfirst : c ↔ t.held = owed s t := by rw [h.held_eq_iff,Set.union_empty]
    constructor
    · rintro ⟨hc,hc'⟩
      rw [h'.held_eq_iff.mp hc',hsame (hfirst.mp hc)]
    · intro heq
      have hleft : t.held = owed s t := by
        refine Set.Subset.antisymm (fun r hr => ?_) fun r hr => h.owed_subset (.inl hr)
        have hmem : r ∈ owed s u ∪ ret :=
          heq ▸ h'.owed_subset (.inl (subset_owed t u hr))
        rcases hmem with hmem | hmem
        · rw [← owed_trans h.toGrows h'.toGrows] at hmem
          rcases hmem with hmem | ⟨hmem,hnew⟩
          · exact hmem
          · exact absurd hr (h'.fresh r hmem hnew)
        · exact absurd (subset_owed t u hr) (h'.disjoint r hmem)
      exact ⟨hfirst.mpr hleft,h'.held_eq_iff.mpr (by rw [heq,hsame hleft])⟩

end Holdings

end WinterLily.Resources
