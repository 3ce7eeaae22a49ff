import WinterLily.Base.CriticalSection
import WinterLily.Sync.Exclusion

/-! Data behind the futex lock, as `Mutex` and `RwLock` of `wl-helpers/src/sync.rs` keep it: the
guard that `lock`, `read` or `write` returns gives access to the data until it is dropped. The threads
run sections of their choice, and every access of a section is a step of its own. -/
namespace WinterLily.Sync
open WinterLily.Transition WinterLily.ReaderWriter WinterLily.Critical

/-- Inside the function that takes the lock in the mode. -/
def Pc.acquires : Bool → Pc → Bool
  | true,.lockExclusive _ | true,.lockExclusiveBackoff _ _ | true,.lockExclusiveParked _ |
    true,.tryLockExclusive => true
  | false,.lockShared _ _ | false,.lockSharedParked _ _ | false,.tryLockSharedLoad |
    false,.tryLockShared _ => true
  | _,_ => false

/-- `lock`, `read` and `write`, or their `try_` variants. -/
def lockCall : Bool → Bool → Call
  | true,false => .lockExclusive
  | true,true => .tryLockExclusive
  | false,false => .lockShared
  | false,true => .tryLockShared

/-- The drop of a guard. -/
def unlockCall : Bool → Call
  | true => .unlockExclusive
  | false => .unlockShared

def Thread.Holds (t : Thread) : Bool → Prop
  | true => t.shared = 0 ∧ t.exclusive = 1
  | false => t.shared = 1 ∧ t.exclusive = 0

def Thread.Free (t : Thread) : Prop := t.shared = 0 ∧ t.exclusive = 0

section Lock

variable {w w' : Word} {t t' : Thread} {spurious mode : Bool}

/-- A thread in a locking function stays in it, gives up, or gets the lock. -/
lemma threadStep_acquires (h : threadStep w t spurious = some (w',t'))
    (hpc : t.pc.acquires mode = true) (ht : t.Free) :
    (t'.pc.acquires mode = true ∧ t'.Free) ∨ (t'.pc = .idle (some false) ∧ t'.Free) ∨
      ∃ r, r ≠ some false ∧ t'.pc = .idle r ∧ t'.Holds mode := by
  obtain ⟨pc,sh,ex⟩ := t
  obtain ⟨rfl,rfl⟩ : sh = 0 ∧ ex = 0 := ht
  cases mode with
  | true =>
    cases pc with
    | lockExclusive step =>
      simp only [threadStep] at h
      split_ifs at h
      · cases h
        exact .inl ⟨rfl,rfl,rfl⟩
      · cases h
        exact .inr (.inr ⟨none,by simp,rfl,rfl,rfl⟩)
      · cases h
        exact .inl ⟨rfl,rfl,rfl⟩
    | lockExclusiveBackoff step e =>
      simp only [threadStep] at h
      split_ifs at h
      · cases h
        exact .inl ⟨rfl,rfl,rfl⟩
      · cases h
        exact .inl ⟨rfl,rfl,rfl⟩
    | lockExclusiveParked step => cases h
    | tryLockExclusive =>
      simp only [threadStep] at h
      split_ifs at h
      · cases h
        exact .inr (.inr ⟨some true,by simp,rfl,rfl,rfl⟩)
      · cases h
        exact .inr (.inl ⟨rfl,rfl,rfl⟩)
    | _ => cases hpc
  | false =>
    cases pc with
    | lockShared step load =>
      simp only [threadStep] at h
      split_ifs at h
      · cases h
        exact .inr (.inr ⟨none,by simp,rfl,rfl,rfl⟩)
      · cases h
        exact .inl ⟨rfl,rfl,rfl⟩
      · cases h
        exact .inl ⟨rfl,rfl,rfl⟩
      · cases h
        exact .inl ⟨rfl,rfl,rfl⟩
    | lockSharedParked step load => cases h
    | tryLockSharedLoad =>
      cases h
      exact .inl ⟨rfl,rfl,rfl⟩
    | tryLockShared load =>
      simp only [threadStep] at h
      split_ifs at h
      · cases h
        exact .inr (.inr ⟨some true,by simp,rfl,rfl,rfl⟩)
      · cases h
        exact .inl ⟨rfl,rfl,rfl⟩
      · cases h
        exact .inr (.inl ⟨rfl,rfl,rfl⟩)
    | _ => cases hpc

lemma threadStep_releases (h : threadStep w t spurious = some (w',t'))
    (hpc : t.pc = (unlockCall mode).entry) (ht : t.Holds mode) :
    t'.pc = .idle none ∧ t'.Free := by
  obtain ⟨pc,sh,ex⟩ := t
  obtain rfl : pc = (unlockCall mode).entry := hpc
  cases mode with
  | true =>
    obtain ⟨rfl,rfl⟩ : sh = 0 ∧ ex = 1 := ht
    cases h
    exact ⟨rfl,rfl,rfl⟩
  | false =>
    obtain ⟨rfl,rfl⟩ : sh = 1 ∧ ex = 0 := ht
    cases h
    exact ⟨rfl,rfl,rfl⟩

lemma unpark_acquires (h : unpark t = some t') (hpc : t.pc.acquires mode = true) (ht : t.Free) :
    t'.pc.acquires mode = true ∧ t'.Free := by
  obtain ⟨pc,sh,ex⟩ := t
  cases pc with
  | lockExclusiveParked step =>
    cases h
    refine ⟨?_,ht⟩
    cases mode with
    | true => rfl
    | false => cases hpc
  | lockSharedParked step load =>
    cases h
    refine ⟨?_,ht⟩
    cases mode with
    | true => cases hpc
    | false => rfl
  | _ => cases h

end Lock

/-- Where a thread is with its section, and how many accesses it has made. -/
inductive Phase (σ δ : Type*)
  | outside
  | acquiring (c : Section σ δ)
  | inside (c : Section σ δ) (n : ℕ)
  | releasing (c : Section σ δ) (n : ℕ)

/-- The lock and the data with the threads. The log has what they did, each section when its thread
gives the lock back. -/
structure Locked (ι σ δ : Type*) where
  lock : State ι
  data : δ
  loc : ι → σ
  phase : ι → Phase σ δ
  log : List (ι × Entry σ δ)

/-- What a thread does next, or how the scheduler lets it go on in the lock. -/
inductive Event (ι σ δ : Type*)
  | own (i : ι) (f : σ → σ)
  | enter (i : ι) (c : Section σ δ) (attempt : Bool)
  | access (i : ι)
  | leave (i : ι)
  | run (i : ι) (spurious : Bool)
  | resume (i : ι)
  | interrupt (i : ι)

section Machine

variable {ι σ δ : Type*} [DecidableEq ι]

namespace Locked

def initial (data : δ) (loc : ι → σ) : Locked ι σ δ :=
  ⟨.initial,data,loc,fun _ => .outside,[]⟩

/-- A thread whose lock has returned goes on with its section or is done with it. -/
def settle (s : Locked ι σ δ) (i : ι) (lock : State ι) : Locked ι σ δ :=
  match s.phase i,(lock.thread i).pc with
  | .acquiring _,.idle (some false) =>
    { s with lock := lock, phase := Function.update s.phase i .outside }
  | .acquiring c,.idle _ =>
    { s with lock := lock, phase := Function.update s.phase i (.inside c 0) }
  | .releasing c n,.idle _ =>
    { s with lock := lock, phase := Function.update s.phase i .outside,
             log := s.log++[(i,.made c n)] }
  | _,_ => { s with lock := lock }

def step (s : Locked ι σ δ) : Event ι σ δ → Option (Locked ι σ δ)
  | .own i f =>
    match s.phase i with
    | .outside =>
      some { s with loc := Function.update s.loc i (f (s.loc i)), log := s.log++[(i,.own f)] }
    | _ => none
  | .enter i c attempt =>
    match s.phase i with
    | .outside => (Sync.step s.lock (.call i (lockCall c.exclusive attempt))).map fun lock =>
      { s with lock := lock, phase := Function.update s.phase i (.acquiring c) }
    | _ => none
  | .access i =>
    match s.phase i with
    | .inside c n => (c.next (s.loc i)).map fun a =>
      let x := a.exec (s.loc i,s.data)
      { s with data := x.2, loc := Function.update s.loc i x.1,
               phase := Function.update s.phase i (.inside c (n+1)) }
    | _ => none
  | .leave i =>
    match s.phase i with
    | .inside c n =>
      if (c.next (s.loc i)).isNone then
        (Sync.step s.lock (.call i (unlockCall c.exclusive))).map fun lock =>
          { s with lock := lock, phase := Function.update s.phase i (.releasing c n) }
      else none
    | _ => none
  | .run i spurious => (Sync.step s.lock (.run i spurious)).map (s.settle i)
  | .resume i => (Sync.step s.lock (.resume i)).map fun lock => { s with lock := lock }
  | .interrupt i => (Sync.step s.lock (.interrupt i)).map fun lock => { s with lock := lock }

end Locked

/-- The section that a thread holds the lock for. -/
def Phase.current : Phase σ δ → Option (Section σ δ × ℕ)
  | .outside | .acquiring _ => none
  | .inside c n | .releasing c n => some (c,n)

/-- The section that a thread has asked for. -/
def Phase.wanted : Phase σ δ → Option (Section σ δ)
  | .outside => none
  | .acquiring c | .inside c _ | .releasing c _ => some c

lemma Phase.wanted_of_current {p : Phase σ δ} {c : Section σ δ} {n : ℕ}
    (h : p.current = some (c,n)) : p.wanted = some c := by
  cases p <;> cases h <;> rfl

/-- Where the thread is in the lock meanwhile. -/
def Phase.Fits (t : Thread) : Phase σ δ → Prop
  | .outside => (∃ r, t.pc = .idle r) ∧ t.Free
  | .acquiring c => t.pc.acquires c.exclusive = true ∧ t.Free
  | .inside c _ => (∃ r, t.pc = .idle r) ∧ t.Holds c.exclusive
  | .releasing c _ => t.pc = (unlockCall c.exclusive).entry ∧ t.Holds c.exclusive

lemma Phase.Fits.holds {p : Phase σ δ} {t : Thread} (h : p.Fits t) {c : Section σ δ} {n : ℕ}
    (hc : p.current = some (c,n)) : t.Holds c.exclusive := by
  cases p with
  | inside c' m | releasing c' m =>
    cases hc
    exact h.2
  | _ => cases hc

/-- The threads stand where `S` has them but for the sections they are in, and those have come from
`S` to where they are now. -/
structure Refines [Fintype ι] (s : Locked ι σ δ) (S : Serial ι σ δ) : Prop where
  lock : Inv s.lock
  fits : ∀ i, (s.phase i).Fits (s.lock.thread i)
  idle : ∀ i, (s.phase i).current = none → s.loc i = S.loc i
  busy : ∀ i c n, (s.phase i).current = some (c,n) →
    (s.loc i,s.data) = c.after n (S.loc i,S.data)
  ended : ∀ i c n, s.phase i = .releasing c n → c.next (s.loc i) = none
  data : (∀ i c n, (s.phase i).current = some (c,n) → c.exclusive = false) → s.data = S.data

section Steps

variable [Fintype ι] {s t : Locked ι σ δ} {S : Serial ι σ δ} {i : ι}

/-- Nobody is in a section beside an exclusive one. -/
lemma holds_alone {k : State ι} (hk : Inv k) {i j : ι} {mode : Bool} (hi : (k.thread i).Holds true)
    (hj : (k.thread j).Holds mode) : j = i := by
  by_contra hne
  have hle := thread_le_holders k i
  have hlej := thread_le_holders k j
  have hexcl := hk.exclusion
  simp only [State.holds,Holds.Exclusion] at hexcl
  obtain ⟨-,hi⟩ := hi
  cases mode with
  | true =>
    obtain ⟨-,hj⟩ := hj
    have hsum : (k.thread j).exclusive+(k.thread i).exclusive ≤ k.exclusiveHolders :=
      Finset.add_le_sum (f := fun j => (k.thread j).exclusive) (fun _ _ => Nat.zero_le _)
        (Finset.mem_univ j) (Finset.mem_univ i) hne
    omega
  | false =>
    obtain ⟨hj,-⟩ := hj
    omega

lemma Refines.alone (h : Refines s S) {j : ι} {c c' : Section σ δ} {n m : ℕ}
    (hi : (s.phase i).current = some (c,n)) (hc : c.exclusive = true)
    (hj : (s.phase j).current = some (c',m)) : j = i := by
  have hold := (h.fits i).holds hi
  rw [hc] at hold
  exact holds_alone h.lock hold ((h.fits j).holds hj)

/-- A step of one thread: it fits again, and the sections of others have come as far as before. -/
lemma Refines.change (h : Refines s S) {k : State ι} {p : Phase σ δ} {u : Thread} {l : σ} {d : δ}
    {T : Serial ι σ δ} (log : List (ι × Entry σ δ)) (hk : Inv k)
    (hthread : k.thread = Function.update s.lock.thread i u) (hfits : p.Fits u)
    (hidle : p.current = none → l = T.loc i)
    (hbusy : ∀ c n, p.current = some (c,n) → (l,d) = c.after n (T.loc i,T.data))
    (hended : ∀ c n, p = .releasing c n → c.next l = none)
    (hloc : ∀ j, j ≠ i → T.loc j = S.loc j)
    (hother : ∀ j c n, j ≠ i → (s.phase j).current = some (c,n) → d = s.data ∧ T.data = S.data)
    (hdata : (∀ j c n, (Function.update s.phase i p j).current = some (c,n) → c.exclusive = false) →
      d = T.data) :
    Refines ⟨k,d,Function.update s.loc i l,Function.update s.phase i p,log⟩ T := by
  refine ⟨hk,fun j => ?_,fun j hj => ?_,fun j c n hj => ?_,fun j c n hj => ?_,hdata⟩ <;>
    dsimp only at * <;> by_cases hji : j = i
  · subst hji
    rwa [hthread,Function.update_self,Function.update_self]
  · rw [hthread,Function.update_of_ne hji,Function.update_of_ne hji]
    exact h.fits j
  · subst hji
    rw [Function.update_self] at hj ⊢
    exact hidle hj
  · rw [Function.update_of_ne hji] at hj ⊢
    rw [hloc j hji]
    exact h.idle j hj
  · subst hji
    rw [Function.update_self] at hj ⊢
    exact hbusy c n hj
  · rw [Function.update_of_ne hji] at hj ⊢
    obtain ⟨hd,hT⟩ := hother j c n hji hj
    rw [hd,hloc j hji,hT]
    exact h.busy j c n hj
  · subst hji
    rw [Function.update_self] at hj ⊢
    exact hended c n hj
  · rw [Function.update_of_ne hji] at hj ⊢
    exact h.ended j c n hj

/-- A step in the lock that takes nothing and gives nothing back. -/
lemma Refines.quiet (h : Refines s S) {k : State ι} {p : Phase σ δ} {u : Thread} (hk : Inv k)
    (hthread : k.thread = Function.update s.lock.thread i u) (hfits : p.Fits u)
    (hcur : p.current = (s.phase i).current)
    (hended : ∀ c n, p = .releasing c n → c.next (s.loc i) = none) :
    Refines { s with lock := k, phase := Function.update s.phase i p } S := by
  have hsame : ∀ j, (Function.update s.phase i p j).current = (s.phase j).current := by
    intro j
    by_cases hj : j = i
    · subst hj
      rw [Function.update_self,hcur]
    · rw [Function.update_of_ne hj]
  have := h.change (l := s.loc i) (d := s.data) (T := S) s.log hk hthread hfits
    (fun hp => h.idle i (hcur ▸ hp)) (fun c n hp => h.busy i c n (hcur ▸ hp)) hended
    (fun _ _ => rfl) (fun _ _ _ _ _ => ⟨rfl,rfl⟩)
    (fun hread => h.data fun j c n hj => hread j c n (by rwa [hsame]))
  rwa [Function.update_eq_self] at this

/-- A thread that gets the lock finds the data as the last section left it. -/
lemma Refines.acquire (h : Refines s S) {k : State ι} {c : Section σ δ} {u : Thread} (hk : Inv k)
    (hthread : k.thread = Function.update s.lock.thread i u) (hi : s.phase i = .acquiring c)
    {r : Option Bool} (hpc : u.pc = .idle r) (hu : u.Holds c.exclusive) :
    Refines { s with lock := k, phase := Function.update s.phase i (.inside c 0) } S := by
  have hnone : (s.phase i).current = none := by rw [hi]; rfl
  -- No other thread is in an exclusive section now.
  have hread : ∀ j c' n, (s.phase j).current = some (c',n) → c'.exclusive = false := by
    intro j c' n hj
    by_contra hex
    rw [Bool.not_eq_false] at hex
    have hne : j ≠ i := by
      rintro rfl
      rw [hnone] at hj
      cases hj
    have hold := (h.fits j).holds hj
    rw [hex,← Function.update_of_ne hne u s.lock.thread,← hthread] at hold
    rw [← Function.update_self i u s.lock.thread,← hthread] at hu
    exact hne (holds_alone hk hold hu).symm
  have hdata := h.data hread
  have := h.change (l := s.loc i) (d := s.data) (T := S) (p := .inside c 0) s.log hk hthread
    ⟨⟨r,hpc⟩,hu⟩ (fun hp => by cases hp) (fun c' n hp => by
      cases hp
      rw [h.idle i hnone,hdata]
      rfl) (fun c' n hp => by cases hp) (fun _ _ => rfl) (fun _ _ _ _ _ => ⟨rfl,rfl⟩) fun _ => hdata
  rwa [Function.update_eq_self] at this

/-- What a section of readers has done to the data, if anybody else is in one. -/
lemma Refines.after_data (h : Refines s S) {c c' : Section σ δ} {n m : ℕ} {j : ι}
    (hi : (s.phase i).current = some (c,n)) (hj : (s.phase j).current = some (c',m)) (hne : j ≠ i)
    (l : ℕ) : (c.after l (S.loc i,S.data)).2 = S.data := by
  refine Section.after_shared ?_ l _
  by_contra hex
  exact hne (h.alone hi (by simpa using hex) hj)

/-- A thread that gives the lock back has done its section as a whole. -/
lemma Refines.release (h : Refines s S) {k : State ι} {c : Section σ δ} {n : ℕ} {u : Thread}
    (hk : Inv k) (hthread : k.thread = Function.update s.lock.thread i u)
    (hi : s.phase i = .releasing c n) {r : Option Bool} (hpc : u.pc = .idle r) (hu : u.Free) :
    ∃ T, serialStep S (i,.made c n) = some T ∧
      Refines { s with lock := k, phase := Function.update s.phase i .outside,
                       log := s.log++[(i,.made c n)] } T := by
  have hcur : (s.phase i).current = some (c,n) := by rw [hi]; rfl
  have hbusy := h.busy i c n hcur
  have hnext : c.next (c.after n (S.loc i,S.data)).1 = none := by
    rw [← hbusy]
    exact h.ended i c n hi
  refine ⟨_,serialStep_made hnext,?_⟩
  have hself : s.loc i = Function.update S.loc i (c.after n (S.loc i,S.data)).1 i := by
    rw [Function.update_self,← hbusy]
  have := h.change (l := s.loc i) (d := s.data)
    (T := ⟨Function.update S.loc i (c.after n (S.loc i,S.data)).1,(c.after n (S.loc i,S.data)).2⟩)
    (p := .outside) (s.log++[(i,.made c n)]) hk hthread ⟨⟨r,hpc⟩,hu⟩
    (fun _ => hself) (fun c' m hp => by cases hp)
    (fun c' m hp => by cases hp) (fun j hj => Function.update_of_ne hj _ _)
    (fun j c' m hne hj => ⟨rfl,h.after_data hcur hj hne n⟩) (fun _ => by rw [← hbusy])
  rwa [Function.update_eq_self] at this

/-- An access is one more of its section, and seen by no other thread. -/
lemma Refines.access (h : Refines s S) {c : Section σ δ} {n : ℕ} {a : Access σ δ}
    (hi : s.phase i = .inside c n) (ha : c.next (s.loc i) = some a) :
    Refines { s with data := (a.exec (s.loc i,s.data)).2,
                     loc := Function.update s.loc i (a.exec (s.loc i,s.data)).1,
                     phase := Function.update s.phase i (.inside c (n+1)) } S := by
  have hcur : (s.phase i).current = some (c,n) := by rw [hi]; rfl
  have hbusy := h.busy i c n hcur
  have hafter : a.exec (s.loc i,s.data) = c.after (n+1) (S.loc i,S.data) := by
    rw [Section.after_succ (a := a) (by rw [← hbusy]; exact ha),hbusy]
  have hfits := h.fits i
  rw [hi] at hfits
  refine h.change s.log h.lock (Function.update_eq_self i s.lock.thread).symm hfits
    (fun hp => by cases hp) (fun c' m hp => ?_) (fun c' m hp => by cases hp) (fun _ _ => rfl)
    (fun j c' m hne hj => ⟨?_,rfl⟩) (fun hread => ?_)
  · cases hp
    exact hafter
  · rw [hafter,h.after_data hcur hj hne]
    have hsame := h.after_data hcur hj hne n
    rw [← hbusy] at hsame
    exact hsame.symm
  · have hshared : c.exclusive = false := hread i c (n+1) (by rw [Function.update_self]; rfl)
    rw [hafter]
    exact Section.after_shared hshared _ _

lemma Refines.own (h : Refines s S) (f : σ → σ) (hi : s.phase i = .outside) :
    Refines { s with loc := Function.update s.loc i (f (s.loc i)), log := s.log++[(i,.own f)] }
      { S with loc := Function.update S.loc i (f (S.loc i)) } := by
  have hcur : (s.phase i).current = none := by rw [hi]; rfl
  have hself : f (s.loc i) = Function.update S.loc i (f (S.loc i)) i := by
    rw [Function.update_self,h.idle i hcur]
  have := h.change (l := f (s.loc i)) (d := s.data)
    (T := { S with loc := Function.update S.loc i (f (S.loc i)) }) (p := s.phase i)
    (s.log++[(i,.own f)]) h.lock (Function.update_eq_self i s.lock.thread).symm (h.fits i)
    (fun _ => hself)
    (fun c n hp => by rw [hcur] at hp; cases hp) (fun c n hp => by rw [hi] at hp; cases hp)
    (fun j hj => Function.update_of_ne hj _ _) (fun _ _ _ _ _ => ⟨rfl,rfl⟩)
    (fun hread => h.data (by rwa [Function.update_eq_self] at hread))
  rwa [Function.update_eq_self] at this

omit [Fintype ι] in
/-- What a call of a thread that holds what it gives back does to the lock. -/
lemma call_eq {k k' : State ι} {c : Call} (h : Sync.step k (.call i c) = some k') :
    k'.thread = Function.update k.thread i { k.thread i with pc := c.entry } := by
  simp only [Sync.step] at h
  split at h
  · split_ifs at h
    cases h
    rfl
  · cases h

lemma lockCall_acquires (mode attempt : Bool) :
    (lockCall mode attempt).entry.acquires mode = true := by
  cases mode <;> cases attempt <;> rfl

/-- A thread that the kernel lets go on is in a locking function. -/
lemma Refines.unpark (h : Refines s S) {k : State ι} {u : Thread} (hk : Inv k)
    (hthread : k.thread = Function.update s.lock.thread i u)
    (hu : Sync.unpark (s.lock.thread i) = some u) : Refines { s with lock := k } S := by
  have hfits := h.fits i
  have hparked := (unpark_eq hu).1
  have hend : ∀ c n, s.phase i = .releasing c n → c.next (s.loc i) = none := h.ended i
  have hp : (s.phase i).Fits u := by
    cases hi : s.phase i with
    | acquiring c =>
      rw [hi] at hfits
      exact unpark_acquires hu hfits.1 hfits.2
    | outside | inside c n =>
      rw [hi] at hfits
      obtain ⟨⟨r,hr⟩,-⟩ := hfits
      rw [hr] at hparked
      cases hparked
    | releasing c n =>
      rw [hi] at hfits
      rw [hfits.1] at hparked
      cases hmode : c.exclusive <;> rw [hmode] at hparked <;> cases hparked
  have := h.quiet hk hthread hp rfl hend
  rwa [Function.update_eq_self] at this

/-- The lock goes on by itself, takes the thread in, or lets it go. -/
lemma Refines.settle (h : Refines s S) {k : State ι} {w : Word} {u : Thread} {spurious : Bool}
    (hk : Inv k) (hthread : k.thread = Function.update s.lock.thread i u)
    (hu : threadStep s.lock.word (s.lock.thread i) spurious = some (w,u)) :
    ((s.settle i k).log = s.log ∧ Refines (s.settle i k) S) ∨
      ∃ c n T, s.phase i = .releasing c n ∧ (s.settle i k).phase i = .outside ∧
        (s.settle i k).log = s.log++[(i,.made c n)] ∧ serialStep S (i,.made c n) = some T ∧
        Refines (s.settle i k) T := by
  have hself : k.thread i = u := by rw [hthread,Function.update_self]
  have hfits := h.fits i
  have hidle : ∀ r, (s.lock.thread i).pc ≠ .idle r := by
    intro r hr
    rw [threadStep,hr] at hu
    cases hu
  cases hi : s.phase i with
  | outside | inside c n =>
    rw [hi] at hfits
    exact absurd hfits.1.choose_spec (hidle _)
  | acquiring c =>
    rw [hi] at hfits
    left
    rcases threadStep_acquires hu hfits.1 hfits.2 with ⟨hpc,hfree⟩ | ⟨hpc,hfree⟩ | ⟨r,hr,hpc,hold⟩
    · have hsettle : s.settle i k = { s with lock := k } := by
        unfold Locked.settle
        rw [hi,hself]
        cases hupc : u.pc with
        | idle r =>
          rw [hupc] at hpc
          revert hpc
          cases c.exclusive <;> simp [Pc.acquires]
        | _ => rfl
      rw [hsettle]
      refine ⟨rfl,?_⟩
      have := h.quiet (p := s.phase i) hk hthread (by rw [hi]; exact ⟨hpc,hfree⟩) rfl (h.ended i)
      rwa [Function.update_eq_self] at this
    · have hsettle : s.settle i k =
          { s with lock := k, phase := Function.update s.phase i .outside } := by
        unfold Locked.settle
        rw [hi,hself,hpc]
      rw [hsettle]
      exact ⟨rfl,h.quiet hk hthread ⟨⟨_,hpc⟩,hfree⟩ (by rw [hi]; rfl) (fun c n hp => by cases hp)⟩
    · have hsettle : s.settle i k =
          { s with lock := k, phase := Function.update s.phase i (.inside c 0) } := by
        unfold Locked.settle
        rw [hi,hself,hpc]
        rcases r with _ | _ | _
        · rfl
        · exact absurd rfl hr
        · rfl
      rw [hsettle]
      exact ⟨rfl,h.acquire hk hthread hi hpc hold⟩
  | releasing c n =>
    rw [hi] at hfits
    obtain ⟨hpc,hfree⟩ := threadStep_releases hu hfits.1 hfits.2
    have hsettle : s.settle i k = { s with lock := k, phase := Function.update s.phase i .outside,
                                           log := s.log++[(i,.made c n)] } := by
      unfold Locked.settle
      rw [hi,hself,hpc]
    obtain ⟨T,hT,hr⟩ := h.release hk hthread hi hpc hfree
    right
    rw [hsettle]
    exact ⟨c,n,T,rfl,Function.update_self _ _ _,rfl,hT,hr⟩

/-- What a step adds to the log. -/
inductive Adds (s t : Locked ι σ δ) (e : Event ι σ δ) : List (ι × Entry σ δ) → Prop
  | nothing : Adds s t e []
  | own (i : ι) (f : σ → σ) (he : e = .own i f) (hi : s.phase i = .outside) :
    Adds s t e [(i,.own f)]
  | made (i : ι) (c : Section σ δ) (n : ℕ) (spurious : Bool) (he : e = .run i spurious)
    (hi : s.phase i = .releasing c n) (ht : t.phase i = .outside) : Adds s t e [(i,.made c n)]

/-- The threads without a lock do what the step adds to the log, and then stand as after the step. -/
lemma Refines.step (h : Refines s S) {e : Event ι σ δ} (hs : s.step e = some t) :
    ∃ new T, Adds s t e new ∧ t.log = s.log++new ∧ run serialStep S new = some T ∧ Refines t T := by
  have hquiet : t.log = s.log → Refines t S → ∃ new T, Adds s t e new ∧ t.log = s.log++new ∧
      run serialStep S new = some T ∧ Refines t T := fun hlog hr =>
    ⟨[],S,.nothing,by rw [hlog,List.append_nil],rfl,hr⟩
  cases e with
  | own i f =>
    simp only [Locked.step] at hs
    cases hi : s.phase i with
    | outside =>
      rw [hi] at hs
      cases hs
      exact ⟨_,_,.own i f rfl hi,rfl,rfl,h.own f hi⟩
    | _ => rw [hi] at hs; cases hs
  | enter i c attempt =>
    simp only [Locked.step] at hs
    cases hi : s.phase i with
    | outside =>
      rw [hi] at hs
      obtain ⟨k,hk,rfl⟩ := Option.map_eq_some_iff.mp hs
      have hfits := h.fits i
      rw [hi] at hfits
      exact hquiet rfl (h.quiet (step_inv _ _ _ h.lock hk) (call_eq hk)
        ⟨lockCall_acquires _ _,hfits.2⟩ (by rw [hi]; rfl) (fun c n hp => by cases hp))
    | _ => rw [hi] at hs; cases hs
  | access i =>
    simp only [Locked.step] at hs
    cases hi : s.phase i with
    | inside c n =>
      rw [hi] at hs
      obtain ⟨a,ha,rfl⟩ := Option.map_eq_some_iff.mp hs
      exact hquiet rfl (h.access hi ha)
    | _ => rw [hi] at hs; cases hs
  | leave i =>
    simp only [Locked.step] at hs
    cases hi : s.phase i with
    | inside c n =>
      rw [hi] at hs
      dsimp only at hs
      split_ifs at hs with hnext
      obtain ⟨k,hk,rfl⟩ := Option.map_eq_some_iff.mp hs
      have hfits := h.fits i
      rw [hi] at hfits
      refine hquiet rfl (h.quiet (step_inv _ _ _ h.lock hk) (call_eq hk) ⟨rfl,hfits.2⟩
        (by rw [hi]; rfl) (fun c' m hp => ?_))
      cases hp
      exact Option.isNone_iff_eq_none.mp hnext
    | _ => rw [hi] at hs; cases hs
  | run i spurious =>
    obtain ⟨k,hk,rfl⟩ := Option.map_eq_some_iff.mp hs
    have hinv := step_inv _ _ _ h.lock hk
    obtain ⟨⟨w,u⟩,hu,rfl⟩ := Option.map_eq_some_iff.mp hk
    rcases h.settle hinv rfl hu with ⟨hlog,hr⟩ | ⟨c,n,T,hi,ht,hlog,hT,hr⟩
    · exact hquiet hlog hr
    · exact ⟨_,T,.made i c n spurious rfl hi ht,hlog,by simp [hT],hr⟩
  | resume i =>
    obtain ⟨k,hk,rfl⟩ := Option.map_eq_some_iff.mp hs
    have hinv := step_inv _ _ _ h.lock hk
    simp only [Sync.step] at hk
    split_ifs at hk
    obtain ⟨u,hu,rfl⟩ := Option.map_eq_some_iff.mp hk
    exact hquiet rfl (h.unpark hinv rfl hu)
  | interrupt i =>
    obtain ⟨k,hk,rfl⟩ := Option.map_eq_some_iff.mp hs
    have hinv := step_inv _ _ _ h.lock hk
    obtain ⟨u,hu,rfl⟩ := Option.map_eq_some_iff.mp hk
    exact hquiet rfl (h.unpark hinv rfl hu)

omit [Fintype ι] in
lemma settle_wanted (k : State ι) (j : ι) :
    ((s.settle i k).phase j).wanted = (s.phase j).wanted ∨ ((s.settle i k).phase j).wanted = none := by
  have hupdate : ∀ p : Phase σ δ, (p.wanted = (s.phase i).wanted ∨ p.wanted = none) →
      (Function.update s.phase i p j).wanted = (s.phase j).wanted ∨
        (Function.update s.phase i p j).wanted = none := by
    intro p hp
    by_cases hj : j = i
    · subst hj
      rwa [Function.update_self]
    · rw [Function.update_of_ne hj]
      exact .inl rfl
  unfold Locked.settle
  split
  · exact hupdate _ (.inr rfl)
  · next c _ hi _ => exact hupdate _ (.inl (by rw [hi]; rfl))
  · exact hupdate _ (.inr rfl)
  · exact .inl rfl

omit [Fintype ι] in
/-- A thread goes on with its section, is done with it, or asks for one. -/
lemma step_wanted {e : Event ι σ δ} (hs : s.step e = some t) (j : ι) :
    (t.phase j).wanted = (s.phase j).wanted ∨ (t.phase j).wanted = none ∨
      ∃ c attempt, e = .enter j c attempt ∧ (t.phase j).wanted = some c := by
  have hupdate : ∀ i p, (p : Phase σ δ).wanted = (s.phase i).wanted →
      (Function.update s.phase i p j).wanted = (s.phase j).wanted := by
    intro i p hp
    by_cases hj : j = i
    · subst hj
      rw [Function.update_self,hp]
    · rw [Function.update_of_ne hj]
  cases e with
  | own i f =>
    simp only [Locked.step] at hs
    split at hs
    · cases hs
      exact .inl rfl
    · cases hs
  | enter i c attempt =>
    simp only [Locked.step] at hs
    split at hs
    · obtain ⟨k,-,rfl⟩ := Option.map_eq_some_iff.mp hs
      by_cases hj : j = i
      · subst hj
        refine .inr (.inr ⟨c,attempt,rfl,?_⟩)
        dsimp only
        rw [Function.update_self]
        rfl
      · refine .inl ?_
        dsimp only
        rw [Function.update_of_ne hj]
    · cases hs
  | access i =>
    simp only [Locked.step] at hs
    split at hs
    · next c n hi =>
      obtain ⟨a,-,rfl⟩ := Option.map_eq_some_iff.mp hs
      exact .inl (hupdate i _ (by rw [hi]; rfl))
    · cases hs
  | leave i =>
    simp only [Locked.step] at hs
    split at hs
    · next c n hi =>
      split_ifs at hs
      obtain ⟨k,-,rfl⟩ := Option.map_eq_some_iff.mp hs
      exact .inl (hupdate i _ (by rw [hi]; rfl))
    · cases hs
  | run i spurious =>
    obtain ⟨k,-,rfl⟩ := Option.map_eq_some_iff.mp hs
    exact (settle_wanted k j).imp_right .inl
  | resume i | interrupt i =>
    obtain ⟨k,-,rfl⟩ := Option.map_eq_some_iff.mp hs
    exact .inl rfl

omit [DecidableEq ι] in
lemma initial_refines (data : δ) (loc : ι → σ) :
    Refines (Locked.initial data loc) ⟨loc,data⟩ := by
  refine ⟨initial_inv,fun i => ⟨⟨none,rfl⟩,rfl,rfl⟩,fun i _ => rfl,?_,?_,fun _ => rfl⟩
  · rintro i c n ⟨⟩
  · rintro i c n ⟨⟩

end Steps

/-- Whatever the threads do and however the lock interleaves them, they and the data are as if the
sections in the log had been made one after another, in the order in which the lock was given back,
and every section still open had been made alone so far. -/
theorem locked_sections_serialise [Fintype ι] {data : δ} {loc : ι → σ} {es : List (Event ι σ δ)}
    {s : Locked ι σ δ} (h : run Locked.step (.initial data loc) es = some s) :
    ∃ S, run serialStep ⟨loc,data⟩ s.log = some S ∧
      (∀ i, (s.phase i).current = none → s.loc i = S.loc i) ∧
      (∀ i c n, (s.phase i).current = some (c,n) →
        (s.loc i,s.data) = c.after n (S.loc i,S.data)) ∧
      ((∀ i c n, (s.phase i).current = some (c,n) → c.exclusive = false) → s.data = S.data) := by
  have hinv : ∃ S, run serialStep ⟨loc,data⟩ s.log = some S ∧ Refines s S := by
    refine run_invariant (I := fun s => ∃ S, run serialStep ⟨loc,data⟩ s.log = some S ∧ Refines s S)
      ?_ ⟨_,rfl,initial_refines data loc⟩ h
    rintro u e v ⟨S,hS,hr⟩ hstep
    obtain ⟨new,T,-,hlog,hT,hr'⟩ := hr.step hstep
    exact ⟨T,by rw [hlog,run_append,hS]; exact hT,hr'⟩
  obtain ⟨S,hS,hr⟩ := hinv
  exact ⟨S,hS,hr.idle,hr.busy,hr.data⟩

end Machine

/-- Loads a number and stores its successor. The thread's own state is how far it is and what it has
loaded. -/
def increment : Section (ℕ × ℕ) ℕ where
  exclusive := true
  next := fun
    | (0,_) => some (.read fun d _ => (1,d))
    | (1,_) => some (.write (fun l _ => l.2+1) fun l => (2,l.2))
    | _ => none
  reads := fun h => by cases h

/-- The second thread asks for the lock while the first one has it. -/
def twoIncrements : List (Event Bool (ℕ × ℕ) ℕ) :=
  [.enter false increment false,.enter true increment false,.run false false,.access false,
    .run true false,.run true false,.access false,.leave false,.run false false,.run true false,
    .access true,.access true,.leave true,.run true false]

theorem locked_sections_serialise_two :
    ∃ s, run Locked.step (.initial 5 fun _ => (0,0)) twoIncrements = some s ∧ s.data = 7 ∧
      s.loc false = (2,5) ∧ s.loc true = (2,6) := by
  obtain ⟨s,hs,hlog,hout⟩ : ∃ s, run Locked.step (.initial 5 fun _ => (0,0)) twoIncrements = some s ∧
      s.log = [(false,.made increment 2),(true,.made increment 2)] ∧
      ∀ i, (s.phase i).current = none := ⟨_,rfl,rfl,fun i => by cases i <;> rfl⟩
  obtain ⟨S,hS,hidle,-,hdata⟩ := locked_sections_serialise hs
  rw [hlog] at hS
  cases hS
  refine ⟨s,hs,hdata fun i c n hc => ?_,hidle false (hout false),hidle true (hout true)⟩
  rw [hout i] at hc
  cases hc

end WinterLily.Sync
