import WinterLily.Env.Refinement

/-! The buffer, the index and the free list of an `EnvMap` as a partition: each entry is either the
entry of one key or a free one. Removing a variable and reusing a free entry break it, every other
path keeps it. -/
namespace WinterLily.Env
open WinterLily.Bytes WinterLily.Utf8 WinterLily.Transition

/-- The key and the value are both empty; what follows is padding. -/
def Entry.IsEmpty (e : Entry) : Prop := ∃ tail, e.body = empty++tail

/-- The buffer is the sequence of entries `es`, the index finds each key in its entry, and every
entry has one key or is empty and listed once. -/
structure Partition (m : EnvMap) (es : List Entry) : Prop where
  env : m.env = flat es
  sized : ∀ e ∈ es, e.size < 2^64
  held : ∀ k off, m.envMap k = some off →
    ∃ i e v, es[i]? = some e ∧ off = start es i ∧ e.Holds k v
  split : ∀ i e, es[i]? = some e → (∃! k, m.envMap k = some (start es i)) ∨
    e.IsEmpty ∧ m.freelist.count (start es i) = 1

def Partitioned (m : EnvMap) : Prop := ∃ es, Partition m es

/-- What the operations keep beyond the partition. -/
structure Tidy (m : EnvMap) (es : List Entry) : Prop extends Partition m es where
  two : ∀ e ∈ es, 2 ≤ e.body.length
  free : ∀ off ∈ m.freelist, ∃ i e, es[i]? = some e ∧ off = start es i ∧ e.IsEmpty
  named : m.envMap noText = none

lemma Entry.IsEmpty.holds {e : Entry} (h : e.IsEmpty) : e.Holds noText noText := h

lemma Entry.blanked_isEmpty (e : Entry) : e.blanked.IsEmpty := ⟨_,rfl⟩

/-- Prefixes determine where each entry ends, so a buffer is cut up in one way only. -/
theorem flat_inj {es fs : List Entry} (he : ∀ e ∈ es, e.size < 2^64) (hf : ∀ f ∈ fs, f.size < 2^64)
    (h : flat es = flat fs) : es = fs := by
  induction es generalizing fs with
  | nil =>
    cases fs with
    | nil => rfl
    | cons f fs =>
      have hlen := congrArg List.length h
      simp only [flat,List.flatMap_cons,List.flatMap_nil,List.length_append,List.length_nil,
        Entry.bytes_length,Entry.size,wordSize] at hlen
      omega
  | cons e es ih =>
    cases fs with
    | nil =>
      have hlen := congrArg List.length h
      simp [flat,Entry.size,wordSize] at hlen
    | cons f fs =>
      simp only [flat,List.flatMap_cons] at h
      have hle : e.size < 256^wordSize := he e (by simp)
      have hlf : f.size < 256^wordSize := hf f (by simp)
      have hword : toLE wordSize e.size = toLE wordSize f.size := by
        have htake := congrArg (List.take wordSize) h
        simpa [Entry.bytes] using htake
      have hsize : e.size = f.size := by
        rw [← ofLE_toLE _ _ hle,hword,ofLE_toLE _ _ hlf]
      obtain ⟨hbytes,hrest⟩ := List.append_inj h (by simpa using hsize)
      have hbody : e.body = f.body := by
        simpa [Entry.bytes,hsize] using hbytes
      have htail := ih (fun e' he' => he e' (by simp [he'])) (fun f' hf' => hf f' (by simp [hf']))
        hrest
      obtain ⟨body⟩ := e
      subst hbody htail
      rfl

section Steps

variable {m : EnvMap} {es : List Entry} {i : ℕ} {e e' : Entry} {key v : Str}

/-- The entry a key refers to holds it. -/
lemma Partition.owner (h : Partition m es) (he : es[i]? = some e)
    (hk : m.envMap key = some (start es i)) : ∃ v, e.Holds key v := by
  obtain ⟨j,f,v,hf,hj,hv⟩ := h.held key _ hk
  obtain rfl := start_inj he hf hj
  rw [he] at hf
  cases hf
  exact ⟨v,hv⟩

/-- An entry of a key is the entry of no other key and is not free. -/
lemma Tidy.not_free (h : Tidy m es) (he : es[i]? = some e) (hk : m.envMap key = some (start es i)) :
    start es i ∉ m.freelist := by
  intro hmem
  obtain ⟨j,f,hf,hj,hempty⟩ := h.free _ hmem
  obtain rfl := start_inj he hf hj
  rw [he] at hf
  cases hf
  obtain ⟨v,hv⟩ := h.owner he hk
  rw [hv.unique hempty.holds,h.named] at hk
  cases hk

lemma Tidy.wf (h : Tidy m es) : ∀ f ∈ es, 2 ≤ f.body.length ∧ f.size < 2^64 :=
  fun f hf => ⟨h.two f hf,h.sized f hf⟩

/-- A free entry is not the one of a key, so it stays when that one is replaced. -/
lemma Tidy.free_set (h : Tidy m es) (he : es[i]? = some e) (hk : m.envMap key = some (start es i))
    (hs : e'.size = e.size) {off : ℕ} (hoff : off ∈ m.freelist) :
    ∃ j f, (es.set i e')[j]? = some f ∧ off = start (es.set i e') j ∧ f.IsEmpty := by
  obtain ⟨j,f,hf,rfl,hempty⟩ := h.free off hoff
  have hij : i ≠ j := by
    rintro rfl
    exact h.not_free he hk hoff
  exact ⟨j,f,by rw [List.getElem?_set_ne hij,hf],(start_set he hs j).symm,hempty⟩

/-- Writing another value into the entry of a key. -/
lemma Tidy.rewrite (h : Tidy m es) (he : es[i]? = some e) (hk : m.envMap key = some (start es i))
    (hv : e'.Holds key v) (hs : e'.size = e.size) :
    Tidy { m with env := flat (es.set i e') } (es.set i e') := by
  have hwf := wf_set h.wf he hs
  obtain ⟨w,hw⟩ := h.owner he hk
  refine ⟨⟨rfl,fun f hf => (hwf f hf).2,?_,?_⟩,fun f hf => (hwf f hf).1,?_,h.named⟩
  · intro k off hoff
    obtain ⟨j,f,u,hf,rfl,hu⟩ := h.held k off hoff
    rw [← start_set he hs j]
    by_cases hij : i = j
    · subst j
      rw [he] at hf
      cases hf
      obtain rfl := hu.unique hw
      exact ⟨i,e',v,set_at he,rfl,hv⟩
    · exact ⟨j,f,u,by rw [List.getElem?_set_ne hij,hf],rfl,hu⟩
  · intro j f hf
    rw [start_set he hs]
    obtain ⟨rfl,rfl⟩ | ⟨-,hf⟩ := set_cases hf
    · -- the key still refers to it, so it was not one of the free entries
      exact (h.split j e he).imp_right fun hfree =>
        absurd (List.count_pos_iff.mp (by omega)) (h.not_free he hk)
    · exact h.split j f hf
  · exact fun off hoff => h.free_set he hk hs hoff

/-- Emptying the entry of a key that leaves the index and listing it as free. -/
lemma Tidy.release (h : Tidy m es) (he : es[i]? = some e)
    (hk : m.envMap key = some (start es i)) :
    Tidy ⟨flat (es.set i e.blanked),Function.update m.envMap key none,m.freelist++[start es i]⟩
      (es.set i e.blanked) := by
  have hs := Entry.blanked_size (h.two e (List.mem_of_getElem? he))
  have hwf := wf_set h.wf he hs
  have hother : ∀ k j f, es[j]? = some f → j ≠ i →
      (Function.update m.envMap key none k = some (start es j) ↔ m.envMap k = some (start es j)) := by
    intro k j f hf hji
    by_cases hne : k = key
    · subst k
      simp only [Function.update_self,reduceCtorEq,hk,Option.some.injEq,false_iff]
      exact fun hij => hji (start_inj hf he hij.symm)
    · rw [Function.update_of_ne hne]
  refine ⟨⟨rfl,fun f hf => (hwf f hf).2,?_,?_⟩,fun f hf => (hwf f hf).1,?_,?_⟩
  · intro k off hoff
    change Function.update m.envMap key none k = some off at hoff
    have hne : k ≠ key := by
      rintro rfl
      simp at hoff
    rw [Function.update_of_ne hne] at hoff
    obtain ⟨j,f,u,hf,rfl,hu⟩ := h.held k off hoff
    have hij : i ≠ j := by
      rintro rfl
      rw [he] at hf
      cases hf
      obtain ⟨w,hw⟩ := h.owner he hk
      exact hne (hu.unique hw)
    exact ⟨j,f,u,by rw [List.getElem?_set_ne hij,hf],(start_set he hs j).symm,hu⟩
  · intro j f hf
    rw [start_set he hs]
    obtain ⟨rfl,rfl⟩ | ⟨hji,hf⟩ := set_cases hf
    · have hcount := List.count_eq_zero.mpr (h.not_free he hk)
      exact .inr ⟨e.blanked_isEmpty,by simp [hcount]⟩
    · have hne : start es i ≠ start es j := fun hij => hji (start_inj hf he hij.symm)
      refine (h.split j f hf).imp (fun hone => ?_) fun hfree => ⟨hfree.1,by simp [hfree.2,hne]⟩
      simpa only [hother _ j f hf hji] using hone
  · intro off hoff
    cases List.mem_append.mp hoff with
    | inl hoff => exact h.free_set he hk hs hoff
    | inr hoff =>
      rw [List.mem_singleton.mp hoff]
      exact ⟨i,e.blanked,set_at he,(start_set he hs i).symm,e.blanked_isEmpty⟩
  · change Function.update m.envMap key none noText = none
    by_cases hne : noText = key
    · simp [hne]
    · rw [Function.update_of_ne hne,h.named]

/-- A new entry at the end, for a key that is not in the index. -/
lemma Tidy.push (h : Tidy m es) (hk : m.envMap key = none) (hnamed : key ≠ noText) (val : Str)
    (hfit : (flat es).length+entryLen key val ≤ isizeMax) :
    Tidy ⟨flat (es++[.fresh key val]),Function.update m.envMap key (some (flat es).length),
      m.freelist⟩ (es++[.fresh key val]) := by
  have hleft : ∀ {j : ℕ} {f : Entry}, es[j]? = some f →
      (es++[.fresh key val])[j]? = some f ∧ start (es++[.fresh key val]) j = start es j := by
    intro j f hf
    obtain ⟨hj,-⟩ := List.getElem?_eq_some_iff.mp hf
    exact ⟨by rw [List.getElem?_append_left hj,hf],start_append (by omega) _⟩
  have hlast : start (es++[.fresh key val]) es.length = (flat es).length := by
    rw [start_append (le_refl _),start_length]
  have hupd : ∀ k off, Function.update m.envMap key (some (flat es).length) k = some off ↔
      k = key ∧ off = (flat es).length ∨ m.envMap k = some off := by
    intro k off
    by_cases hne : k = key
    · subst k
      simp [hk,eq_comm]
    · simp [hne]
  have hnone : ∀ k, m.envMap k ≠ some (flat es).length := by
    intro k hoff
    obtain ⟨j,f,u,hf,hj,-⟩ := h.held k _ hoff
    exact absurd hj (start_lt_length hf).ne'
  refine ⟨⟨rfl,?_,?_,?_⟩,?_,?_,?_⟩
  · intro f hf
    cases List.mem_append.mp hf with
    | inl hf => exact h.sized f hf
    | inr hf => rw [List.mem_singleton.mp hf]; exact (fresh_wf key val hfit).2
  · intro k off hoff
    obtain ⟨rfl,rfl⟩ | hoff := (hupd k off).mp hoff
    · exact ⟨es.length,_,val,by simp,hlast.symm,Entry.fresh_holds k val⟩
    · obtain ⟨j,f,u,hf,rfl,hu⟩ := h.held k off hoff
      exact ⟨j,f,u,(hleft hf).1,(hleft hf).2.symm,hu⟩
  · intro j f hf
    simp only [hupd]
    obtain hf | ⟨rfl,-⟩ := push_cases hf
    · -- an older entry starts before the new one
      have hlt : start es j ≠ (flat es).length := (start_lt_length hf).ne
      simpa only [(hleft hf).2,hlt,and_false,false_or] using h.split j f hf
    · refine .inl ⟨key,.inl ⟨rfl,hlast⟩,fun k hkey => ?_⟩
      rw [hlast] at hkey
      exact (hkey.resolve_right (hnone k)).1
  · intro f hf
    cases List.mem_append.mp hf with
    | inl hf => exact h.two f hf
    | inr hf => rw [List.mem_singleton.mp hf]; exact (fresh_wf key val hfit).1
  · intro off hoff
    obtain ⟨j,f,hf,rfl,hempty⟩ := h.free off hoff
    exact ⟨j,f,(hleft hf).1,(hleft hf).2.symm,hempty⟩
  · change Function.update m.envMap key _ noText = none
    rw [Function.update_of_ne (Ne.symm hnamed),h.named]

/-- A new entry at the end, whether or not the key had one. -/
lemma Tidy.append (h : Tidy m es) (hnamed : key ≠ noText) {val : Str} {t : EnvMap}
    (ht : m.append key val = some t) : ∃ es', Tidy t es' := by
  have hfit : (flat es).length+entryLen key val ≤ isizeMax := by
    by_contra hfit
    simp only [EnvMap.append,pushEntry,h.env,hfit,if_false,Option.bind_eq_bind,Option.bind_none,
      reduceCtorEq] at ht
  cases hk : m.envMap key with
  | none =>
    rw [append_new h.env hk hfit,Option.some.injEq] at ht
    subst ht
    exact ⟨_,h.push hk hnamed val hfit⟩
  | some off =>
    obtain ⟨i,e,v,he,rfl,hv⟩ := h.held key off hk
    have htwo := h.two e (List.mem_of_getElem? he)
    rw [append_moved h.env hk he htwo hfit,Option.some.injEq] at ht
    subst ht
    have hlen : (flat (es.set i e.blanked)).length = (flat es).length := by
      rw [← start_length,start_set he (Entry.blanked_size htwo),List.length_set,start_length]
    have hgone : Function.update m.envMap key none key = none := Function.update_self ..
    have hpush := (h.release he hk).push hgone hnamed val (by rwa [hlen])
    simp only [Function.update_idem,hlen] at hpush
    exact ⟨_,hpush⟩

/-- The loop of `from_iter` frees nothing. -/
lemma Tidy.fromIterLoop (h : Tidy m es) {pairs : List (Str × Str)}
    (hnamed : ∀ p ∈ pairs, p.1 ≠ noText) {t : EnvMap} (ht : fromIterLoop m pairs = some t) :
    t.freelist = m.freelist ∧ ∃ es', Tidy t es' := by
  induction pairs generalizing m es with
  | nil =>
    cases ht
    exact ⟨rfl,es,h⟩
  | cons p pairs ih =>
    obtain ⟨key,val⟩ := p
    simp only [Env.fromIterLoop,Option.bind_eq_bind] at ht
    split at ht
    · cases ht
    · next hk =>
      obtain ⟨env,henv,ht⟩ := Option.bind_eq_some_iff.mp ht
      rw [h.env] at henv
      have hfit : (flat es).length+entryLen key val ≤ isizeMax := by
        by_contra hfit
        simp [pushEntry,hfit] at henv
      rw [pushEntry_flat es key val hfit,Option.some.injEq] at henv
      subst henv
      rw [h.env] at ht
      have hpush := h.push (Option.not_isSome_iff_eq_none.mp hk) (hnamed (key,val) (by simp)) val hfit
      have hrest := ih hpush (fun q hq => hnamed q (by simp [hq])) ht
      exact hrest

lemma Tidy.size_at (h : Tidy m es) (he : es[i]? = some e) :
    prefixAt m.env (start es i) = some e.size :=
  prefixAt_flat h.env he (h.sized e (List.mem_of_getElem? he))

end Steps

lemma Tidy.new : Tidy ⟨[],fun _ => none,[]⟩ [] :=
  ⟨⟨rfl,by simp,nofun,by simp⟩,by simp,by simp,rfl⟩

lemma Tidy.fromIterIn {pairs : List (Str × Str)} (hnamed : ∀ p ∈ pairs, p.1 ≠ noText) {m : EnvMap}
    (hm : fromIterIn (fun _ => none) pairs = some m) : m.freelist = [] ∧ ∃ es, Tidy m es :=
  Tidy.new.fromIterLoop hnamed hm

lemma putValue_drop {s : Slice} {env env' : List Byte} {n : ℕ} {val : Str}
    (h : putValue s env val = some env') (hhi : s.hi ≤ n) (hl : s.hi ≤ env.length) :
    env'.drop n = env.drop n := by
  simp only [putValue,Option.bind_eq_bind] at h
  obtain ⟨head,hhead,h⟩ := Option.bind_eq_some_iff.mp h
  obtain ⟨env₁,hcopy,hset⟩ := Option.bind_eq_some_iff.mp h
  obtain ⟨hle,rfl⟩ := upTo_eq_some.mp hhead
  rw [setAt_drop hset hhi]
  exact copyFrom_drop hcopy (by simp) (by simp only; omega) (by simp only; omega)

/-- The writes of the free-list branch go through the window `..elem`. -/
lemma front_frame {m t : EnvMap} {key val : Str} {elem : ℕ}
    (h : (((whole m.env).upTo elem).bind fun ptr =>
      (ptr.range wordSize (wordSize+key.1.length)).bind fun head =>
      (head.copyFrom m.env key.1).bind fun env =>
      (ptr.setAt env (wordSize+key.1.length) keyTerm).bind fun env =>
      (ptr.after (wordSize+key.1.length+1)).bind fun ptr =>
      (putValue ptr env val).bind fun env => some { m with env }) = some t) :
    t.envMap = m.envMap ∧ t.env.drop elem = m.env.drop elem := by
  obtain ⟨ptr,hptr,h⟩ := Option.bind_eq_some_iff.mp h
  obtain ⟨head,hhead,h⟩ := Option.bind_eq_some_iff.mp h
  obtain ⟨env₁,hcopy,h⟩ := Option.bind_eq_some_iff.mp h
  obtain ⟨env₂,hset,h⟩ := Option.bind_eq_some_iff.mp h
  obtain ⟨ptr',hptr',h⟩ := Option.bind_eq_some_iff.mp h
  obtain ⟨env₃,hput,h⟩ := Option.bind_eq_some_iff.mp h
  cases h
  obtain ⟨hlen,rfl⟩ := upTo_eq_some.mp hptr
  obtain ⟨⟨hle,hin⟩,rfl⟩ := range_eq_some.mp hhead
  obtain ⟨hlast,rfl⟩ := after_eq_some.mp hptr'
  simp only [whole,Nat.zero_add] at *
  have hlen₁ : env₁.length = m.env.length := copyFrom_length hcopy hle (by simp only; omega)
  have hlen₂ : env₂.length = m.env.length := by rw [setAt_length hset,hlen₁]
  refine ⟨trivial,?_⟩
  rw [putValue_drop hput (le_refl _) (by simp only; omega),setAt_drop hset (le_refl _)]
  exact copyFrom_drop hcopy hle hin (by simp only; omega)

/-- The free-list branch points the key at the free entry but writes in front of it. -/
lemma reuse_frame {m t : EnvMap} {key val : Str} {j elem : ℕ}
    (h : m.reuse key val j elem = some t) :
    ∃ env, (m.envMap key = none ∧ env = m.env ∨
        ∃ old, m.envMap key = some old ∧ blank m.env old = some env) ∧
      t.envMap key = some elem ∧ t.env.drop elem = env.drop elem := by
  simp only [EnvMap.reuse,Option.bind_eq_bind] at h
  split at h
  · next old hold =>
    obtain ⟨env,henv,h⟩ := Option.bind_eq_some_iff.mp h
    obtain ⟨hindex,hdrop⟩ := front_frame h
    exact ⟨env,.inr ⟨old,hold,henv⟩,by simp [hindex],hdrop⟩
  · next hnone =>
    obtain ⟨hindex,hdrop⟩ := front_frame h
    exact ⟨m.env,.inl ⟨hnone,rfl⟩,by simp [hindex],hdrop⟩

lemma drop_flat {es : List Entry} {i : ℕ} {e : Entry} (he : es[i]? = some e) :
    ∃ c, (flat es).drop (start es i+wordSize) = e.body++c := by
  obtain ⟨a,c,ha,hflat,-⟩ := flat_set he
  refine ⟨c,?_⟩
  rw [hflat,← ha,List.append_assoc,← List.drop_drop,List.drop_left,Entry.bytes,List.append_assoc]
  exact List.drop_left' (toLE_length _ _)

section Breaks

variable {m t : EnvMap} {es : List Entry} {key val : Str}

/-- The entry of a removed variable is empty and not on the free list. -/
lemma Tidy.removeVar_breaks (h : Tidy m es) (hk : m.envMap key ≠ none)
    (ht : m.removeVar key = some t) : ¬ Partitioned t := by
  obtain ⟨off,hk⟩ := Option.ne_none_iff_exists'.mp hk
  obtain ⟨i,e,v,he,rfl,hv⟩ := h.held key off hk
  have htwo := h.two e (List.mem_of_getElem? he)
  have hs := Entry.blanked_size htwo
  rw [removeVar_flat h.env hk he htwo,Option.some.injEq] at ht
  subst ht
  rintro ⟨fs,hp⟩
  obtain rfl := flat_inj (fun f hf => (wf_set h.wf he hs f hf).2) hp.sized hp.env
  have hsplit := hp.split i e.blanked (set_at he)
  rw [start_set he hs] at hsplit
  cases hsplit with
  | inl hone =>
    obtain ⟨k,hown,-⟩ := hone
    have hne : k ≠ key := by
      rintro rfl
      simp at hown
    change Function.update m.envMap key none k = _ at hown
    rw [Function.update_of_ne hne] at hown
    obtain ⟨w,hw⟩ := h.owner he hown
    exact hne (hw.unique hv)
  | inr hfree =>
    have hcount : m.freelist.count (start es i) = 1 := hfree.2
    exact h.not_free he hk (List.count_pos_iff.mp (by omega))

/-- A key that took a free entry refers to an entry that is still empty. -/
lemma Tidy.reuse_breaks (h : Tidy m es) (hnamed : key ≠ noText) {j elem : ℕ}
    (hfree : elem ∈ m.freelist) (ht : m.reuse key val j elem = some t) : ¬ Partitioned t := by
  obtain ⟨i,e,he,rfl,hempty⟩ := h.free elem hfree
  obtain ⟨env,henv,hindex,hdrop⟩ := reuse_frame ht
  have hbody : ∃ c, env.drop (start es i+wordSize) = e.body++c := by
    obtain ⟨-,rfl⟩ | ⟨old,hold,hblank⟩ := henv
    · rw [h.env]
      exact drop_flat he
    · obtain ⟨i',e',v,he',rfl,-⟩ := h.held key old hold
      have hii : i' ≠ i := by
        rintro rfl
        exact h.not_free he' hold hfree
      have htwo := h.two e' (List.mem_of_getElem? he')
      rw [h.env,blank_flat he' htwo,Option.some.injEq] at hblank
      have hset : (es.set i' e'.blanked)[i]? = some e := by rw [List.getElem?_set_ne hii,he]
      rw [← hblank,← start_set he' (Entry.blanked_size htwo)]
      exact drop_flat hset
  rintro ⟨fs,hp⟩
  obtain ⟨j',f,v,hf,hstart,⟨tail,hv⟩⟩ := hp.held key _ hindex
  obtain ⟨c,hc⟩ := hbody
  obtain ⟨c',hc'⟩ := drop_flat hf
  obtain ⟨tail',he'⟩ := hempty
  -- both readings of the byte after the prefix: the terminator of an empty key, and of the key
  rw [← hp.env,← hstart,← List.drop_drop,hdrop,List.drop_drop,hc,he',hv] at hc'
  match hbytes : key.1 with
  | [] => exact hnamed (Subtype.ext hbytes)
  | x::xs =>
    rw [hbytes] at hc'
    have hx : keyTerm = x := (List.cons.inj hc').1
    exact keyTerm_notMem key (by rw [hbytes,hx]; simp)

end Breaks

/-- The change keeps the partition: the value goes over the old one or every free entry is longer
than the new one; a removed variable was not set. -/
def KeepsPartition (m : EnvMap) : Change → Prop
  | .set key val => m.fitsInPlace key val = true ∨
      ∀ off ∈ m.freelist, ((prefixAt m.env off).any fun tlen => entryLen key val < tlen) = true
  | .remove key => m.envMap key = none

instance (m : EnvMap) : DecidablePred (KeepsPartition m)
  | .set _ _ => inferInstanceAs (Decidable (_ ∨ _))
  | .remove _ => inferInstanceAs (Decidable (_ = _))

def Change.key : Change → Str
  | .set key _ => key
  | .remove key => key

/-- A search that does not pass over every free entry takes one of them. -/
lemma findFree_some {env : List Byte} {elen : ℕ} {l : List ℕ}
    (hread : ∀ off ∈ l, ∃ tlen, prefixAt env off = some tlen)
    (h : ¬ ∀ off ∈ l, ((prefixAt env off).any fun tlen => elen < tlen) = true) (i : ℕ) :
    ∃ j elem, EnvMap.findFree env elen i l = some (some (j,elem)) ∧ elem ∈ l := by
  induction l generalizing i with
  | nil => simp at h
  | cons off l ih =>
    obtain ⟨tlen,htlen⟩ := hread off (by simp)
    simp only [EnvMap.findFree,htlen,Option.bind_eq_bind,Option.bind_some]
    by_cases hle : tlen ≤ elen
    · exact ⟨i,off,by simp [hle],by simp⟩
    · have hrest : ¬ ∀ off ∈ l, ((prefixAt env off).any fun tlen => elen < tlen) = true := by
        intro hrest
        apply h
        intro off' hoff'
        cases List.mem_cons.mp hoff' with
        | inl heq => simp [heq,htlen]; omega
        | inr hmem => exact hrest off' hmem
      obtain ⟨j,elem,hfind,hmem⟩ := ih (fun off' hoff' => hread off' (by simp [hoff'])) hrest (i+1)
      exact ⟨j,elem,by simp [hle,hfind],by simp [hmem]⟩

/-- The two ways `set_var` can go, by the entry the key has. -/
lemma Tidy.setVar_eq {m : EnvMap} {es : List Entry} (h : Tidy m es) (key val : Str) :
    (∃ i e, es[i]? = some e ∧ m.envMap key = some (start es i) ∧ entryLen key val ≤ e.size ∧
        m.fitsInPlace key val = true ∧
        m.setVar key val = some { m with env := flat (es.set i (e.revalued key val)) }) ∨
      m.fitsInPlace key val = false ∧ m.setVar key val = m.setElsewhere key val := by
  unfold EnvMap.setVar EnvMap.fitsInPlace
  cases hk : m.envMap key with
  | none => exact .inr ⟨rfl,rfl⟩
  | some off =>
    obtain ⟨i,e,v,he,rfl,hv⟩ := h.held key off hk
    simp only [h.size_at he,Option.bind_eq_bind,Option.bind_some,Option.any_some,decide_eq_true_eq,
      decide_eq_false_iff_not]
    by_cases hle : entryLen key val ≤ e.size
    · refine .inl ⟨i,e,he,rfl,hle,hle,?_⟩
      rw [if_pos hle,overwrite_flat h.env he hv hle]
    · exact .inr ⟨hle,if_neg hle⟩

/-- A change that keeps to the condition keeps the buffer in order. -/
lemma tidy_step {m t : EnvMap} {ch : Change} (hm : ∃ es, Tidy m es) (hnamed : ch.key ≠ noText)
    (hc : KeepsPartition m ch) (ht : m.change ch = some t) : ∃ es, Tidy t es := by
  obtain ⟨es,h⟩ := hm
  cases ch with
  | remove key => exact ⟨es,change_remove_unset hc ht ▸ h⟩
  | set key val =>
    change m.setVar key val = some t at ht
    obtain ⟨i,e,he,hk,hle,-,hset⟩ | ⟨hfits,hset⟩ := h.setVar_eq key val
    · rw [hset,Option.some.injEq] at ht
      exact ⟨_,ht ▸ h.rewrite he hk (e.revalued_holds key val) (Entry.revalued_size hle)⟩
    · have hfree := hc.resolve_left (by simp [hfits])
      rw [hset,EnvMap.setElsewhere,findFree_none hfree] at ht
      exact h.append hnamed ht

/-- Any other change that goes through leaves an entry neither used nor free. -/
lemma not_partitioned_step {m t : EnvMap} {ch : Change} (hm : ∃ es, Tidy m es)
    (hnamed : ch.key ≠ noText) (hc : ¬ KeepsPartition m ch) (ht : m.change ch = some t) :
    ¬ Partitioned t := by
  obtain ⟨es,h⟩ := hm
  cases ch with
  | remove key => exact h.removeVar_breaks hc ht
  | set key val =>
    obtain ⟨hfits,hfree⟩ := not_or.mp hc
    change m.setVar key val = some t at ht
    obtain ⟨i,e,-,-,-,hin,-⟩ | ⟨-,hset⟩ := h.setVar_eq key val
    · exact absurd hin hfits
    · have hread : ∀ off ∈ m.freelist, ∃ tlen, prefixAt m.env off = some tlen := by
        intro off hoff
        obtain ⟨i,e,he,rfl,-⟩ := h.free off hoff
        exact ⟨e.size,h.size_at he⟩
      obtain ⟨j,elem,hfind,hmem⟩ := findFree_some hread hfree 0
      rw [hset,EnvMap.setElsewhere,hfind] at ht
      exact h.reuse_breaks hnamed hmem ht

/-- Given an index to start from, the runs that keep the partition are those that never remove a
variable that is set and never take an entry from the free list. -/
theorem partitioned_iff_keepsPartition (pairs : List (Str × Str)) (chs : List Change)
    (hpairs : ∀ p ∈ pairs, p.1 ≠ noText) (hchs : ∀ ch ∈ chs, ch.key ≠ noText) (m : EnvMap)
    (hm : fromIterIn (fun _ => none) pairs = some m) :
    Always EnvMap.change Partitioned m chs ↔ Guarded EnvMap.change KeepsPartition m chs := by
  apply always_iff_guarded_within (I := fun m => ∃ es, Tidy m es)
    (D := fun _ ch => ch.key ≠ noText)
  · exact fun s ch t hs hnamed hc ht => tidy_step hs hnamed hc ht
  · exact fun s ⟨es,hs⟩ => ⟨es,hs.toPartition⟩
  · exact fun s ch t hs hnamed hc ht => not_partitioned_step hs hnamed hc ht
  · exact (Tidy.fromIterIn hpairs hm).2
  · exact guarded_of_mem (fun ch hch _ => hchs ch hch) m

/-- A variable overwritten in place, one added and one set anew at the end of the buffer. -/
theorem partitioned_iff_keepsPartition_grow :
    ∃ m, fromIterIn (fun _ => none) [(nameA,noText)] = some m ∧
      Always EnvMap.change Partitioned m
        [.set nameA noText,.set nameB nameA,.set nameA nameB,.remove (letter 0x43#8 rfl)] := by
  refine ⟨_,rfl,?_⟩
  apply (partitioned_iff_keepsPartition [(nameA,noText)] _ (by decide) (by decide) _ rfl).mpr
  decide

/-- A removed variable leaves an empty entry that no one can find again. -/
theorem removed_entry_lost :
    ∃ m, fromIterIn (fun _ => none) [(nameA,noText)] = some m ∧
      ¬ Always EnvMap.change Partitioned m [.remove nameA] := by
  refine ⟨_,rfl,fun h => ?_⟩
  have hnamed : ∀ p ∈ [(nameA,noText)], p.1 ≠ noText := by decide
  obtain ⟨es,hes⟩ := (Tidy.fromIterIn hnamed rfl).2
  have hkey : (Change.remove nameA).key ≠ noText := by decide
  exact not_partitioned_step ⟨es,hes⟩ hkey (by decide) rfl (h.2 _ rfl)

end WinterLily.Env
