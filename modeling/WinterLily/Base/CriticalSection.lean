import WinterLily.Base.Transition

/-! Critical sections over shared data. A section is what a thread does between taking a lock and
giving it back, one access to the data at a time, with the next access chosen from what the thread has
seen so far. Run one after another, sections give the meaning that a lock is to keep. -/
namespace WinterLily.Critical
open WinterLily.Transition

/-- A load or a store of some of the data. A store uses the thread's own state only for its value. -/
inductive Access (σ δ : Type*)
  | read (f : δ → σ → σ)
  | write (f : σ → δ → δ) (g : σ → σ)

section Meaning

variable {ι σ δ : Type*}

def Access.isRead : Access σ δ → Bool
  | .read _ => true
  | .write _ _ => false

def Access.exec (x : σ × δ) : Access σ δ → σ × δ
  | .read f => (f x.2 x.1,x.2)
  | .write f g => (g x.1,f x.1 x.2)

/-- A section that is not exclusive only reads. -/
structure Section (σ δ : Type*) where
  exclusive : Bool
  next : σ → Option (Access σ δ)
  reads : exclusive = false → ∀ l a, next l = some a → a.isRead = true

/-- The thread and the data after so many accesses, or at the end of the section. -/
def Section.after (c : Section σ δ) : ℕ → σ × δ → σ × δ
  | 0,x => x
  | n+1,x =>
    let y := c.after n x
    match c.next y.1 with
    | none => y
    | some a => a.exec y

lemma Access.exec_read {a : Access σ δ} (h : a.isRead = true) (x : σ × δ) : (a.exec x).2 = x.2 := by
  cases a with
  | read f => rfl
  | write f g => cases h

lemma Section.after_succ {c : Section σ δ} {n : ℕ} {x : σ × δ} {a : Access σ δ}
    (h : c.next (c.after n x).1 = some a) : c.after (n+1) x = a.exec (c.after n x) := by
  simp only [Section.after,h]

/-- Readers leave the data alone. -/
lemma Section.after_shared {c : Section σ δ} (hc : c.exclusive = false) (n : ℕ) (x : σ × δ) :
    (c.after n x).2 = x.2 := by
  induction n with
  | zero => rfl
  | succ n ih =>
    cases h : c.next (c.after n x).1 with
    | none => simp only [Section.after,h,ih]
    | some a => rw [Section.after_succ h,Access.exec_read (c.reads hc _ a h),ih]

/-- What a thread does as a whole: something of its own, or a section of so many accesses. -/
inductive Entry (σ δ : Type*)
  | own (f : σ → σ)
  | made (c : Section σ δ) (n : ℕ)

/-- The threads with the data, without a lock. -/
structure Serial (ι σ δ : Type*) where
  loc : ι → σ
  data : δ

/-- One thread does one thing, and a section to its end. -/
def serialStep [DecidableEq ι] (S : Serial ι σ δ) (e : ι × Entry σ δ) : Option (Serial ι σ δ) :=
  match e.2 with
  | .own f => some { S with loc := Function.update S.loc e.1 (f (S.loc e.1)) }
  | .made c n =>
    let x := c.after n (S.loc e.1,S.data)
    match c.next x.1 with
    | some _ => none
    | none => some ⟨Function.update S.loc e.1 x.1,x.2⟩

lemma serialStep_made [DecidableEq ι] {S : Serial ι σ δ} {i : ι} {c : Section σ δ} {n : ℕ}
    (h : c.next (c.after n (S.loc i,S.data)).1 = none) :
    serialStep S (i,.made c n) = some ⟨Function.update S.loc i (c.after n (S.loc i,S.data)).1,
      (c.after n (S.loc i,S.data)).2⟩ := by
  simp only [serialStep,h]

end Meaning

end WinterLily.Critical
