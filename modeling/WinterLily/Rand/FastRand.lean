import WinterLily.Sync.Guarded

/-! `fast_rand` of `wl-impl/src/rand.rs` in any number of threads. A thread's generator is seeded once,
by two draws of the generator that all threads share behind a `Mutex`. Each draw loads the shared
generator and stores it, so without the lock two threads could draw the same words. -/
namespace WinterLily.Rand
open WinterLily.Transition WinterLily.Critical WinterLily.Sync

abbrev Word := BitVec 64

/-- What `Gen` of `wl-helpers/src/rand.rs` uses of `RawSipHasher<2, 4>`. -/
structure Hasher (H : Type*) where
  fromKeys : Word → Word → H
  update : H → Word → H
  finish : H → Word

section Gen

variable {H : Type*} (A : Hasher H)

/-- `Gen::seed`; the bytes are two words for it and for its caller. -/
def seed (k₀ k₁ : Word) : H := A.fromKeys k₀ k₁

/-- `Gen::next`. -/
def next (g : H) : Word × H :=
  let g := A.update g 0x6a09e667f3bcc908#64
  let ret := A.finish g
  let g := A.update g 0xbb67ae8584caa73b#64
  (ret,g)

/-- The generator after so many draws. -/
def advance (g : H) : ℕ → H
  | 0 => g
  | n+1 => (next A (advance g n)).2

/-- The draws of a generator, from 0 on. -/
def draw (g : H) (n : ℕ) : Word := (next A (advance A g n)).1

def draws (g : H) (n : ℕ) : List Word := (List.range n).map (draw A g)

lemma draws_succ (g : H) (n : ℕ) : draws A g (n+1) = draws A g n++[draw A g n] := by
  simp [draws,List.range_succ]

@[simp] lemma draws_length (g : H) (n : ℕ) : (draws A g n).length = n := by simp [draws]

end Gen

/-- A thread: the keys it has drawn and the shared generator while it draws one, its `LOCAL_SEED`, and
what `fast_rand` has returned to it. -/
structure Local (H : Type*) where
  keys : List Word
  loaded : Option H
  localSeed : Option H
  outs : List Word

section FastRand

variable {ι H : Type*} [DecidableEq ι] (A : Hasher H)

/-- Before the first call. -/
def Local.fresh : Local H := ⟨[],none,none,[]⟩

/-- `[global.next(), global.next()]` under the lock. -/
def drawKeys : Section (Local H) H where
  exclusive := true
  next := fun l =>
    match l.loaded with
    | some g => some (.write (fun _ _ => (next A g).2) fun l =>
        { l with keys := l.keys++[(next A g).1], loaded := none })
    | none =>
      if l.keys.length < 2 then some (.read fun g l => { l with loaded := some g }) else none
  reads := fun h => by cases h

/-- `LOCAL_SEED` is set once the closure has returned the keys. -/
def setSeed (l : Local H) : Local H :=
  match l.keys with
  | [k₀,k₁] => { l with localSeed := some (seed A k₀ k₁) }
  | _ => l

/-- `borrowed.next()`. -/
def takeNext (l : Local H) : Local H :=
  match l.localSeed with
  | some g => { l with localSeed := some (next A g).2, outs := l.outs++[(next A g).1] }
  | none => l

/-- The steps of a thread in `fast_rand`, and of the lock. -/
inductive Move (ι : Type*)
  | own (i : ι)
  | lock (i : ι)
  | access (i : ι)
  | unlock (i : ι)
  | run (i : ι) (spurious : Bool)
  | resume (i : ι)
  | interrupt (i : ι)
  deriving DecidableEq, Repr

/-- What `fast_rand` has a thread do. -/
def Move.event (s : Locked ι (Local H) H) : Move ι → Option (Event ι (Local H) H)
  | .own i =>
    match (s.loc i).localSeed,(s.loc i).keys with
    | some _,_ => some (.own i (takeNext A))
    | none,[_,_] => some (.own i (setSeed A))
    | none,_ => none
  | .lock i =>
    match (s.loc i).localSeed,(s.loc i).keys with
    | none,[] => some (.enter i (drawKeys A) false)
    | _,_ => none
  | .access i => some (.access i)
  | .unlock i => some (.leave i)
  | .run i spurious => some (.run i spurious)
  | .resume i => some (.resume i)
  | .interrupt i => some (.interrupt i)

def fastRandStep (s : Locked ι (Local H) H) (e : Move ι) : Option (Locked ι (Local H) H) :=
  (e.event A s).bind s.step

end FastRand

section Sections

variable {H : Type*} (A : Hasher H)

/-- The section to its end. -/
lemma drawKeys_after (g : H) :
    (drawKeys A).after 4 (.fresh,g) = (⟨[draw A g 0,draw A g 1],none,none,[]⟩,advance A g 2) := rfl

/-- It makes four accesses. -/
lemma drawKeys_made {g : H} {n : ℕ}
    (h : (drawKeys A).next ((drawKeys A).after n (.fresh,g)).1 = none) :
    (drawKeys A).after n (.fresh,g) =
      (⟨[draw A g 0,draw A g 1],none,none,[]⟩,advance A g 2) := by
  rw [← drawKeys_after]
  have hstay : ∀ k, (drawKeys A).after (4+k) (.fresh,g) = (drawKeys A).after 4 (.fresh,g) := by
    intro k
    induction k with
    | zero => rfl
    | succ k ih =>
      rw [← Nat.add_assoc,Section.after,ih]
      rfl
  rcases n with _ | _ | _ | _ | n
  · cases h
  · cases h
  · cases h
  · cases h
  · rw [show n+1+1+1+1 = 4+n by omega,hstay n]

/-- It leaves what the thread has been given alone. -/
lemma drawKeys_outs (n : ℕ) (x : Local H × H) : ((drawKeys A).after n x).1.outs = x.1.outs := by
  induction n with
  | zero => rfl
  | succ n ih =>
    rw [← ih,Section.after]
    generalize (drawKeys A).after n x = y
    cases hl : y.1.loaded with
    | some g => simp [drawKeys,hl,Access.exec]
    | none =>
      by_cases hk : y.1.keys.length < 2
      · simp only [drawKeys,hl,if_pos hk,Access.exec]
      · simp only [drawKeys,hl,if_neg hk]

end Sections

section Invariant

variable {ι H : Type*} {A : Hasher H} {g : H} {order : List ι} {i j : ι} {l : Local H}

lemma advance_add (g : H) (m n : ℕ) : advance A (advance A g m) n = advance A g (m+n) := by
  induction n with
  | zero => rfl
  | succ n ih => rw [advance,ih,← Nat.add_assoc,advance]

lemma draw_advance (g : H) (m n : ℕ) : draw A (advance A g m) n = draw A g (m+n) := by
  rw [draw,advance_add,draw]

variable (A g) in
/-- The generator of the thread that is seeded after `n` others. -/
def streamOf (n : ℕ) : H := seed A (draw A g (2*n)) (draw A g (2*n+1))

variable (A g order i l) in
/-- The thread has its place in the order of the seedings and draws from its own generator. -/
inductive Seeded : Prop
  | fresh (hi : i ∉ order) (hl : l = .fresh)
  | keyed (n : ℕ) (hn : order[n]? = some i) (hloaded : l.loaded = none)
    (hkeys : l.keys = [draw A g (2*n),draw A g (2*n+1)]) (hseed : l.localSeed = none)
    (houts : l.outs = [])
  | seeded (n : ℕ) (hn : order[n]? = some i) (k : ℕ)
    (hseed : l.localSeed = some (advance A (streamOf A g n) k))
    (houts : l.outs = draws A (streamOf A g n) k)
    (hkeys : l.keys = [draw A g (2*n),draw A g (2*n+1)])

/-- The next thread to be seeded does not move the others. -/
lemma Seeded.snoc (h : Seeded A g order j l) (hij : j ≠ i) : Seeded A g (order++[i]) j l := by
  have hget : ∀ n : ℕ, order[n]? = some j → (order++[i])[n]? = some j := by
    intro n hn
    rw [List.getElem?_append_left (List.getElem?_eq_some_iff.mp hn).1,hn]
  cases h with
  | fresh hi hl => exact .fresh (by simp [hi,hij]) hl
  | keyed n hn hloaded hkeys hseed houts => exact .keyed n (hget n hn) hloaded hkeys hseed houts
  | seeded n hn k hseed houts hkeys => exact .seeded n (hget n hn) k hseed houts hkeys

lemma Seeded.of_fresh (h : Seeded A g order i .fresh) : i ∉ order := by
  cases h with
  | fresh hi _ => exact hi
  | keyed n _ _ hkeys => cases hkeys
  | seeded n _ k hseed => cases hseed

lemma Seeded.eq_fresh (h : Seeded A g order i l) (hl : l.keys = []) : l = .fresh := by
  cases h with
  | fresh _ hl => exact hl
  | keyed n _ _ hkeys | seeded n _ k _ _ hkeys =>
    rw [hl] at hkeys
    cases hkeys

/-- The thread at a place of the order has the two draws for that place. -/
lemma Seeded.keys_eq (h : Seeded A g order i l) (hnodup : order.Nodup) {n : ℕ}
    (hn : order[n]? = some i) : l.keys = [draw A g (2*n),draw A g (2*n+1)] := by
  have hplace : ∀ k, order[k]? = some i → k = n := by
    intro k hk
    obtain ⟨hk',hki⟩ := List.getElem?_eq_some_iff.mp hk
    obtain ⟨hn',hni⟩ := List.getElem?_eq_some_iff.mp hn
    exact (hnodup.getElem_inj_iff).mp (hki.trans hni.symm)
  cases h with
  | fresh hi hl => exact absurd (List.mem_of_getElem? hn) hi
  | keyed k hk _ hkeys => rwa [← hplace k hk]
  | seeded k hk _ _ _ hkeys => rwa [← hplace k hk]

lemma Seeded.setSeed (h : Seeded A g order i l) (hseed : l.localSeed = none) (hk : l.keys ≠ []) :
    Seeded A g order i (setSeed A l) := by
  cases h with
  | fresh _ hl => exact absurd (by rw [hl]; rfl) hk
  | keyed n hn _ hkeys _ houts =>
    unfold Rand.setSeed
    rw [hkeys]
    exact .seeded n hn 0 rfl (by rw [houts]; rfl) rfl
  | seeded n _ k hs =>
    rw [hseed] at hs
    cases hs

lemma Seeded.takeNext (h : Seeded A g order i l) {r : H} (hseed : l.localSeed = some r) :
    Seeded A g order i (takeNext A l) := by
  cases h with
  | fresh _ hl =>
    rw [hl] at hseed
    cases hseed
  | keyed n _ _ _ hs =>
    rw [hs] at hseed
    cases hseed
  | seeded n hn k hs houts hkeys =>
    unfold Rand.takeNext
    rw [hs]
    refine .seeded n hn (k+1) rfl ?_ hkeys
    rw [draws_succ,← houts]
    rfl

variable {s : Locked ι (Local H) H}

/-- Only a thread without keys asks for the lock. -/
lemma event_enter {e : Move ι} {c : Section (Local H) H} {attempt : Bool}
    (h : e.event A s = some (.enter i c attempt)) : c = drawKeys A ∧ (s.loc i).keys = [] := by
  cases e with
  | lock i' =>
    simp only [Move.event] at h
    split at h
    · next hseed hkeys =>
      cases h
      exact ⟨rfl,hkeys⟩
    · cases h
  | own i' =>
    simp only [Move.event] at h
    split at h <;> cases h
  | _ => cases h

lemma event_own {e : Move ι} {f : Local H → Local H} (h : e.event A s = some (.own i f)) :
    (f = takeNext A ∧ ∃ r, (s.loc i).localSeed = some r) ∨
      f = setSeed A ∧ (s.loc i).localSeed = none ∧ (s.loc i).keys ≠ [] := by
  cases e with
  | own i' =>
    simp only [Move.event] at h
    split at h
    · next r hseed =>
      cases h
      exact .inl ⟨rfl,r,hseed⟩
    · next k₀ k₁ hseed hkeys =>
      cases h
      exact .inr ⟨rfl,hseed,by simp [hkeys]⟩
    · cases h
  | lock i' =>
    simp only [Move.event] at h
    split at h <;> cases h
  | _ => cases h

variable [DecidableEq ι] [Fintype ι]

/-- The shared generator has been drawn from twice for each thread in the order. -/
structure RandInv (A : Hasher H) (g : H) (s : Locked ι (Local H) H) (S : Serial ι (Local H) H)
    (order : List ι) : Prop where
  refines : Refines s S
  nodup : order.Nodup
  data : S.data = advance A g (2*order.length)
  wanted : ∀ i c, (s.phase i).wanted = some c → c = drawKeys A ∧ S.loc i = .fresh
  seeded : ∀ i, Seeded A g order i (S.loc i)

omit [DecidableEq ι] in
lemma initial_randInv (g : H) :
    RandInv A g (.initial g fun _ : ι => .fresh) ⟨fun _ => .fresh,g⟩ [] := by
  refine ⟨initial_refines g _,List.nodup_nil,rfl,?_,fun i => .fresh (by simp) rfl⟩
  rintro i c ⟨⟩

/-- Only the shared generator and the thread that has drawn from it change. -/
lemma RandInv.made {s t : Locked ι (Local H) H} {S T : Serial ι (Local H) H} {n : ℕ}
    (h : RandInv A g s S order) (hi : s.phase i = .releasing (drawKeys A) n)
    (hT : serialStep S (i,.made (drawKeys A) n) = some T) (hr : Refines t T)
    (ht : ∀ j c, (t.phase j).wanted = some c → j ≠ i ∧ (s.phase j).wanted = some c) :
    RandInv A g t T (order++[i]) := by
  have hfresh : S.loc i = .fresh := (h.wanted i (drawKeys A) (by rw [hi]; rfl)).2
  have hnot : i ∉ order := (hfresh ▸ h.seeded i).of_fresh
  have hnext : (drawKeys A).next ((drawKeys A).after n (S.loc i,S.data)).1 = none := by
    cases hnext : (drawKeys A).next ((drawKeys A).after n (S.loc i,S.data)).1 with
    | none => rfl
    | some a =>
      simp only [serialStep,hnext] at hT
      cases hT
  rw [serialStep_made hnext] at hT
  rw [hfresh] at hT hnext
  rw [drawKeys_made A hnext,h.data] at hT
  cases hT
  refine ⟨hr,?_,?_,fun j c hj => ?_,fun j => ?_⟩
  · rw [List.nodup_append]
    exact ⟨h.nodup,by simp,by simpa using fun a ha => ne_of_mem_of_not_mem ha hnot⟩
  · rw [List.length_append,advance_add]
    rfl
  · obtain ⟨hne,hw⟩ := ht j c hj
    obtain ⟨hc,hloc⟩ := h.wanted j c hw
    exact ⟨hc,by rw [← hloc]; exact Function.update_of_ne hne _ _⟩
  · dsimp only
    by_cases hj : j = i
    · subst hj
      rw [Function.update_self,draw_advance,draw_advance]
      exact .keyed order.length (by simp) rfl rfl rfl rfl
    · rw [Function.update_of_ne hj]
      exact (h.seeded j).snoc hj

lemma randInv_step {s t : Locked ι (Local H) H} {S : Serial ι (Local H) H} {e : Move ι}
    (h : RandInv A g s S order) (hs : fastRandStep A s e = some t) :
    ∃ T order', RandInv A g t T order' := by
  obtain ⟨ev,hev,hs⟩ := Option.bind_eq_some_iff.mp hs
  obtain ⟨new,T,hadds,-,hT,hr⟩ := h.refines.step hs
  have hwanted := step_wanted hs
  cases hadds with
  | nothing =>
    cases hT
    refine ⟨S,order,hr,h.nodup,h.data,fun j c hj => ?_,h.seeded⟩
    rcases hwanted j with hsame | hnone | ⟨c',attempt,rfl,hc'⟩
    · exact h.wanted j c (by rwa [← hsame])
    · rw [hnone] at hj
      cases hj
    · obtain ⟨hc,hkeys⟩ := event_enter hev
      rw [hc'] at hj
      cases hj
      have hout : (s.phase j).current = none := by
        simp only [Locked.step] at hs
        split at hs
        · next hi => rw [hi]; rfl
        · cases hs
      rw [h.refines.idle j hout] at hkeys
      exact ⟨hc,(h.seeded j).eq_fresh hkeys⟩
  | own i f he hi =>
    subst he
    have hloc : s.loc i = S.loc i := h.refines.idle i (by rw [hi]; rfl)
    cases hT
    refine ⟨_,order,hr,h.nodup,h.data,fun j c hj => ?_,fun j => ?_⟩
    · have hw : (s.phase j).wanted = some c := by
        rcases hwanted j with hsame | hnone | ⟨c',attempt,hc',-⟩
        · rwa [← hsame]
        · rw [hnone] at hj
          cases hj
        · cases hc'
      have hne : j ≠ i := by
        rintro rfl
        rw [hi] at hw
        cases hw
      obtain ⟨hc,hfresh⟩ := h.wanted j c hw
      exact ⟨hc,by rw [← hfresh]; exact Function.update_of_ne hne _ _⟩
    · dsimp only
      by_cases hj : j = i
      · subst hj
        rw [Function.update_self]
        rcases event_own hev with ⟨rfl,r,hr⟩ | ⟨rfl,hseed,hkeys⟩
        · exact (h.seeded j).takeNext (hloc ▸ hr)
        · exact (h.seeded j).setSeed (hloc ▸ hseed) (hloc ▸ hkeys)
      · rw [Function.update_of_ne hj]
        exact h.seeded j
  | made i c n spurious he hi hout =>
    subst he
    obtain rfl : c = drawKeys A := (h.wanted i c (by rw [hi]; rfl)).1
    have hT' : serialStep S (i,.made (drawKeys A) n) = some T := by
      simpa using hT
    refine ⟨T,order++[i],h.made hi hT' hr fun j c hj => ?_⟩
    have hne : j ≠ i := by
      rintro rfl
      rw [hout] at hj
      cases hj
    refine ⟨hne,?_⟩
    rcases hwanted j with hsame | hnone | ⟨c',attempt,hc',-⟩
    · rwa [← hsame]
    · rw [hnone] at hj
      cases hj
    · cases hc'

omit [DecidableEq ι] in
/-- A thread that has its keys is in no section. -/
lemma RandInv.loc_eq {s : Locked ι (Local H) H} {S : Serial ι (Local H) H}
    (h : RandInv A g s S order) (hi : i ∈ order) : s.loc i = S.loc i := by
  cases hcur : (s.phase i).current with
  | none => exact h.refines.idle i hcur
  | some cn =>
    obtain ⟨-,hfresh⟩ := h.wanted i cn.1 (Phase.wanted_of_current hcur)
    exact absurd hi (hfresh ▸ h.seeded i).of_fresh

omit [DecidableEq ι] in
/-- A thread that has been given something has its keys. -/
lemma RandInv.mem_of_outs {s : Locked ι (Local H) H} {S : Serial ι (Local H) H}
    (h : RandInv A g s S order) (houts : (s.loc i).outs ≠ []) : i ∈ order := by
  by_contra hi
  have hfresh : S.loc i = .fresh := by
    cases h.seeded i with
    | fresh _ hl => exact hl
    | keyed n hn | seeded n hn => exact absurd (List.mem_of_getElem? hn) hi
  cases hcur : (s.phase i).current with
  | none => exact houts (by rw [h.refines.idle i hcur,hfresh]; rfl)
  | some cn =>
    obtain ⟨c,n⟩ := cn
    obtain ⟨rfl,-⟩ := h.wanted i c (Phase.wanted_of_current hcur)
    have hbusy := congrArg (fun x => x.1.outs) (h.refines.busy i _ n hcur)
    dsimp only at hbusy
    rw [drawKeys_outs,hfresh] at hbusy
    exact houts hbusy

/-- In any number of threads and however they are interleaved, the draws of the shared generator go in
pairs to the threads that have drawn their keys, one thread after another, and none to anything else;
and what `fast_rand` has returned to a thread are the first draws of the generator that its pair
seeds. -/
theorem fast_rand_streams {es : List (Move ι)} {s : Locked ι (Local H) H}
    (h : run (fastRandStep A) (.initial g fun _ => .fresh) es = some s) :
    ∃ order : List ι, order.Nodup ∧
      (∀ n i, order[n]? = some i → (s.loc i).keys = [draw A g (2*n),draw A g (2*n+1)]) ∧
      ((∀ i, (s.phase i).current = none) → s.data = advance A g (2*order.length)) ∧
      ∀ i, (s.loc i).outs ≠ [] → ∃ n, order[n]? = some i ∧ (s.loc i).outs =
        draws A (seed A (draw A g (2*n)) (draw A g (2*n+1))) (s.loc i).outs.length := by
  obtain ⟨S,order,hinv⟩ : ∃ S order, RandInv A g s S order :=
    run_invariant (I := fun s => ∃ S order, RandInv A g s S order)
      (fun s e t hs ht => by
        obtain ⟨S,order,hinv⟩ := hs
        exact randInv_step hinv ht) ⟨_,[],initial_randInv g⟩ h
  refine ⟨order,hinv.nodup,fun n i hn => ?_,fun hout => ?_,fun i houts => ?_⟩
  · rw [hinv.loc_eq (List.mem_of_getElem? hn)]
    exact (hinv.seeded i).keys_eq hinv.nodup hn
  · have hdata : s.data = S.data := hinv.refines.data fun i c n hi => by
      rw [hout i] at hi
      cases hi
    rw [hdata,hinv.data]
  · have hloc : s.loc i = S.loc i := hinv.loc_eq (hinv.mem_of_outs houts)
    rw [hloc] at houts ⊢
    cases hinv.seeded i with
    | fresh _ hl => exact absurd (by rw [hl]; rfl) houts
    | keyed n _ _ _ _ hnil => exact absurd hnil houts
    | seeded n hn k _ hk _ =>
      refine ⟨n,hn,?_⟩
      rw [hk,draws_length]
      rfl

end Invariant

/-- A hasher that adds up. -/
def adder : Hasher Word := ⟨fun k₀ k₁ => k₀+k₁,fun h m => h+m,fun h => h⟩

/-- The second thread asks for the lock while the first one draws its keys. -/
def twoThreads : List (Move Bool) :=
  [.lock false,.lock true,.run false false,.access false,.run true false,.access false,.access false,
    .access false,.unlock false,.run true false,.run false false,.own false,.own false,.run true false,
    .access true,.access true,.access true,.access true,.unlock true,.run true false,.own false,
    .own true,.own true]

theorem fast_rand_streams_two :
    ∃ s, run (fastRandStep adder) (.initial 5#64 fun _ => .fresh) twoThreads = some s ∧
      (s.loc false).outs.length = 2 ∧ (s.loc true).outs.length = 1 ∧
      ∃ n k, n ≠ k ∧ (s.loc false).outs =
          draws adder (seed adder (draw adder 5#64 (2*n)) (draw adder 5#64 (2*n+1))) 2 ∧
        (s.loc true).outs =
          draws adder (seed adder (draw adder 5#64 (2*k)) (draw adder 5#64 (2*k+1))) 1 := by
  obtain ⟨s,hs,hf,ht⟩ : ∃ s,
      run (fastRandStep adder) (.initial 5#64 fun _ => .fresh) twoThreads = some s ∧
      (s.loc false).outs.length = 2 ∧ (s.loc true).outs.length = 1 := ⟨_,rfl,rfl,rfl⟩
  obtain ⟨order,-,-,-,hstreams⟩ := fast_rand_streams hs
  obtain ⟨n,hn,hnf⟩ := hstreams false (fun h => by rw [h] at hf; cases hf)
  obtain ⟨k,hk,hkt⟩ := hstreams true (fun h => by rw [h] at ht; cases ht)
  rw [hf] at hnf
  rw [ht] at hkt
  refine ⟨s,hs,hf,ht,n,k,?_,hnf,hkt⟩
  rintro rfl
  rw [hn] at hk
  cases hk

end WinterLily.Rand
