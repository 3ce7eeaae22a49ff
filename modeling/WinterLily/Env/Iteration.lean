import WinterLily.Env.Partition

/-! `iter` against `var`: the iterator yields what every entry of the buffer holds, the index knows
only the entries in use. They part at the first entry that is freed. -/
namespace WinterLily.Env
open WinterLily.Bytes WinterLily.Utf8 WinterLily.Transition

/-- `iter` ends and yields the pairs that `var` finds, each once. -/
def IterAgrees (m : EnvMap) : Prop :=
  ∃ items, Iterates m.env items ∧ items.Nodup ∧ ∀ k v, (k,v) ∈ items ↔ m.var k = some (some v)

lemma Iterates.unique {it : List Byte} {xs ys : List (Str × Str)} (hx : Iterates it xs)
    (hy : Iterates it ys) : xs = ys := by
  induction hx generalizing ys with
  | done h =>
    cases hy with
    | done => rfl
    | item h' => rw [h] at h'; cases h'
  | item h _ ih =>
    cases hy with
    | done h' => rw [h] at h'; cases h'
    | item h' hrest =>
      rw [h] at h'
      cases h'
      rw [ih hrest]

/-- One step of the iterator reads one entry, whatever pads it. -/
lemma next_entry {e : Entry} {k v : Str} (hs : e.size < 2^64) (hv : e.Holds k v) (c : List Byte) :
    Iter.next (e.bytes++c) = some (some ((k,v),c)) := by
  obtain ⟨tail,hb⟩ := hv
  have hlen : ¬ (e.bytes++c).length < wordSize := by
    simp only [List.length_append,Entry.bytes_length,Entry.size]
    omega
  have htake : (e.bytes++c).take wordSize = toLE wordSize e.size := by
    simp [Entry.bytes]
  have hdrop : (e.bytes++c).drop wordSize = k.1++keyTerm::(v.1++entryTerm::(tail++c)) := by
    simp [Entry.bytes,hb]
  have hafter : (whole (e.bytes++c)).after e.size = some ⟨e.size,(e.bytes++c).length⟩ := by
    rw [after_some (by simp [whole])]
    simp [whole]
  have hstop : (keyTerm::(v.1++entryTerm::(tail++c))).findIdx? (· == entryTerm) =
      some (v.1.length+1) := by
    rw [List.findIdx?_cons,if_neg (by decide),findIdx_append_cons (entryTerm_notMem v)]
    rfl
  unfold Iter.next
  rw [if_neg hlen]
  simp only [htake,hdrop,ofLE_toLE wordSize e.size hs,hafter,Option.bind_eq_bind,Option.bind_some,
    findIdx_append_cons (keyTerm_notMem k),List.take_left,List.drop_left,hstop,fromUtf8_str]
  have hrange : (whole (keyTerm::(v.1++entryTerm::(tail++c)))).range 1 (v.1.length+1) =
      some ⟨1,v.1.length+1⟩ := by
    simp [range_eq_some,whole]
  have hval : (⟨1,v.1.length+1⟩ : Slice).get (keyTerm::(v.1++entryTerm::(tail++c))) = v.1 := by
    simp [Slice.get]
  have htail : (⟨e.size,(e.bytes++c).length⟩ : Slice).get (e.bytes++c) = c := by
    rw [get_to_end,← e.bytes_length,List.drop_left]
  simp only [hrange,Option.bind_some,hval,htail,fromUtf8_str]

/-- The iterator goes through a whole buffer entry by entry. -/
lemma iterates_map {β : Type*} {l : List β} {e : β → Entry} {f : β → Str × Str}
    (hs : ∀ b ∈ l, (e b).size < 2^64) (hf : ∀ b ∈ l, (e b).Holds (f b).1 (f b).2) :
    Iterates (flat (l.map e)) (l.map f) := by
  induction l with
  | nil => exact .done rfl
  | cons b l ih =>
    have hnext := next_entry (hs b (by simp)) (hf b (by simp)) (flat (l.map e))
    have hrest := ih (fun c hc => hs c (by simp [hc])) fun c hc => hf c (by simp [hc])
    exact .item hnext hrest

lemma iterates_flat {es : List Entry} (f : Entry → Str × Str) (hs : ∀ e ∈ es, e.size < 2^64)
    (hf : ∀ e ∈ es, e.Holds (f e).1 (f e).2) : Iterates (flat es) (es.map f) := by
  have h := iterates_map (e := id) hs hf
  rwa [List.map_id] at h

section Tidy

variable {m : EnvMap} {es : List Entry}

/-- Every entry can be read, a free one as two empty strings. -/
lemma Tidy.readable (h : Tidy m es) : ∃ f : Entry → Str × Str, ∀ e ∈ es, e.Holds (f e).1 (f e).2 := by
  have hpair : ∀ e, ∃ p : Str × Str, e ∈ es → e.Holds p.1 p.2 := by
    intro e
    by_cases he : e ∈ es
    · obtain ⟨i,he⟩ := List.mem_iff_getElem?.mp he
      cases h.split i e he with
      | inl hone =>
        obtain ⟨k,hk,-⟩ := hone
        obtain ⟨v,hv⟩ := h.owner he hk
        exact ⟨(k,v),fun _ => hv⟩
      | inr hfree => exact ⟨(noText,noText),fun _ => hfree.1.holds⟩
    · exact ⟨(noText,noText),fun he' => absurd he' he⟩
  choose f hf using hpair
  exact ⟨f,hf⟩

/-- With nothing free the two agree. -/
lemma Tidy.iterAgrees (h : Tidy m es) (hfree : m.freelist = []) : IterAgrees m := by
  obtain ⟨f,hf⟩ := h.readable
  have hown : ∀ i e, es[i]? = some e → m.envMap (f e).1 = some (start es i) := by
    intro i e he
    have hone := (h.split i e he).resolve_right (by simp [hfree])
    obtain ⟨k,hk,-⟩ := hone
    obtain ⟨v,hv⟩ := h.owner he hk
    rwa [(hf e (List.mem_of_getElem? he)).unique hv]
  have hvar : ∀ i e, es[i]? = some e → m.var (f e).1 = some (some (f e).2) :=
    fun i e he => var_flat h.env (hown i e he) he (hf e (List.mem_of_getElem? he))
  refine ⟨es.map f,h.env ▸ iterates_flat f h.sized hf,?_,fun k v => ⟨fun hmem => ?_,fun hkv => ?_⟩⟩
  · rw [List.nodup_iff_getElem?_ne_getElem?]
    intro i j hij hj heq
    rw [List.length_map] at hj
    have hei := List.getElem?_eq_getElem (hij.trans hj)
    have hej := List.getElem?_eq_getElem hj
    rw [List.getElem?_map,List.getElem?_map,hei,hej,Option.map_some,Option.map_some,
      Option.some.injEq] at heq
    have hstart := hown i _ hei
    rw [heq,hown j _ hej,Option.some.injEq] at hstart
    exact hij.ne (start_inj hei hej hstart.symm)
  · obtain ⟨e,he,hkv⟩ := List.mem_map.mp hmem
    obtain ⟨i,he⟩ := List.mem_iff_getElem?.mp he
    rw [← show (f e).1 = k by rw [hkv],← show (f e).2 = v by rw [hkv]]
    exact hvar i e he
  · cases hk : m.envMap k with
    | none =>
      rw [EnvMap.var,hk] at hkv
      cases hkv
    | some off =>
      obtain ⟨i,e,w,he,rfl,hw⟩ := h.held k off hk
      have hmem := List.mem_of_getElem? he
      have hkey : (f e).1 = k := (hf e hmem).unique hw
      have hval := hvar i e he
      rw [hkey,hkv,Option.some.injEq,Option.some.injEq] at hval
      exact List.mem_map.mpr ⟨e,hmem,Prod.ext hkey hval.symm⟩

/-- A free entry is yielded as a variable with an empty name, which no lookup finds. -/
lemma Tidy.not_iterAgrees (h : Tidy m es) (hfree : m.freelist ≠ []) : ¬ IterAgrees m := by
  rintro ⟨items,hit,-,hagree⟩
  obtain ⟨f,hf⟩ := h.readable
  obtain ⟨off,hoff⟩ := List.exists_mem_of_ne_nil _ hfree
  obtain ⟨i,e,he,rfl,hempty⟩ := h.free off hoff
  have hmem := List.mem_of_getElem? he
  rw [h.env] at hit
  have hitems := hit.unique (iterates_flat f h.sized hf)
  have hkey : (f e).1 = noText := (hf e hmem).unique hempty.holds
  have hlookup := (hagree (f e).1 (f e).2).mp (by rw [hitems]; exact List.mem_map_of_mem hmem)
  rw [hkey,EnvMap.var,h.named] at hlookup
  cases hlookup

end Tidy

/-- The change frees no entry: a variable is added or overwritten in place, and only one that is
not set is removed. -/
def FreesNothing (m : EnvMap) : Change → Prop
  | .set key val => m.envMap key = none ∨ m.fitsInPlace key val = true
  | .remove key => m.envMap key = none

instance (m : EnvMap) : DecidablePred (FreesNothing m)
  | .set _ _ => inferInstanceAs (Decidable (_ ∨ _))
  | .remove _ => inferInstanceAs (Decidable (_ = _))

/-- The buffer is in order and nothing in it is free. -/
def Full (m : EnvMap) : Prop := m.freelist = [] ∧ ∃ es, Tidy m es

lemma Full.setElsewhere {m : EnvMap} (h : Full m) (key val : Str) :
    m.setElsewhere key val = m.append key val := by
  rw [EnvMap.setElsewhere,findFree_none (by simp [h.1])]
  rfl

lemma append_freelist {m t : EnvMap} {key val : Str} (ht : m.append key val = some t) :
    t.freelist = m.freelist++(m.envMap key).toList := by
  simp only [EnvMap.append,Option.bind_eq_bind] at ht
  obtain ⟨env,-,ht⟩ := Option.bind_eq_some_iff.mp ht
  split at ht
  · next old hold =>
    obtain ⟨env',-,ht⟩ := Option.bind_eq_some_iff.mp ht
    cases ht
    simp [hold]
  · next hnone =>
    cases ht
    simp [hnone]

lemma full_step {m t : EnvMap} {ch : Change} (hm : Full m) (hnamed : ch.key ≠ noText)
    (hc : FreesNothing m ch) (ht : m.change ch = some t) : Full t := by
  have hkeeps : KeepsPartition m ch := by
    cases ch with
    | set key val => exact .inr (by simp [hm.1])
    | remove key => exact hc
  refine ⟨?_,tidy_step hm.2 hnamed hkeeps ht⟩
  obtain ⟨es,h⟩ := hm.2
  cases ch with
  | remove key => exact change_remove_unset hc ht ▸ hm.1
  | set key val =>
    change m.setVar key val = some t at ht
    obtain ⟨i,e,-,-,-,-,hset⟩ | ⟨hfits,hset⟩ := h.setVar_eq key val
    · rw [hset,Option.some.injEq] at ht
      exact ht ▸ hm.1
    · have hk : m.envMap key = none := hc.resolve_right (by simp [hfits])
      rw [hset,hm.setElsewhere] at ht
      rw [append_freelist ht,hm.1,hk]
      rfl

/-- Freeing an entry shows in the iteration at once. -/
lemma not_iterAgrees_step {m t : EnvMap} {ch : Change} (hm : Full m) (hnamed : ch.key ≠ noText)
    (hc : ¬ FreesNothing m ch) (ht : m.change ch = some t) : ¬ IterAgrees t := by
  obtain ⟨es,h⟩ := hm.2
  cases ch with
  | remove key =>
    obtain ⟨off,hk⟩ := Option.ne_none_iff_exists'.mp hc
    obtain ⟨i,e,v,he,rfl,-⟩ := h.held key off hk
    change m.removeVar key = some t at ht
    rw [removeVar_flat h.env hk he (h.two e (List.mem_of_getElem? he)),Option.some.injEq] at ht
    -- neither side of the agreement reads the free list
    have hlisted := (h.release he hk).not_iterAgrees (by simp)
    exact ht ▸ hlisted
  | set key val =>
    obtain ⟨hk,hfits⟩ := not_or.mp hc
    obtain ⟨off,hk⟩ := Option.ne_none_iff_exists'.mp hk
    change m.setVar key val = some t at ht
    obtain ⟨i,e,-,-,-,hin,-⟩ | ⟨-,hset⟩ := h.setVar_eq key val
    · exact absurd hin hfits
    · rw [hset,hm.setElsewhere] at ht
      obtain ⟨fs,hfs⟩ := h.append hnamed ht
      exact hfs.not_iterAgrees (by simp [append_freelist ht,hk])

/-- Given an index to start from, the runs along which `iter` agrees with `var` are those that
never free an entry. -/
theorem iterAgrees_iff_freesNothing (pairs : List (Str × Str)) (chs : List Change)
    (hpairs : ∀ p ∈ pairs, p.1 ≠ noText) (hchs : ∀ ch ∈ chs, ch.key ≠ noText) (m : EnvMap)
    (hm : fromIterIn (fun _ => none) pairs = some m) :
    Always EnvMap.change IterAgrees m chs ↔ Guarded EnvMap.change FreesNothing m chs := by
  apply always_iff_guarded_within (I := Full) (D := fun _ ch => ch.key ≠ noText)
  · exact fun s ch t hs hnamed hc ht => full_step hs hnamed hc ht
  · exact fun s ⟨hfree,es,hs⟩ => hs.iterAgrees hfree
  · exact fun s ch t hs hnamed hc ht => not_iterAgrees_step hs hnamed hc ht
  · exact Tidy.fromIterIn hpairs hm
  · exact guarded_of_mem (fun ch hch _ => hchs ch hch) m

/-- Two variables, one of them shortened in place. -/
theorem iterAgrees_iff_freesNothing_shorten :
    ∃ m, fromIterIn (fun _ => none) [(nameA,nameB)] = some m ∧
      Always EnvMap.change IterAgrees m [.set nameB nameA,.set nameA noText,.set nameB nameB] := by
  refine ⟨_,rfl,?_⟩
  apply (iterAgrees_iff_freesNothing [(nameA,nameB)] _ (by decide) (by decide) _ rfl).mpr
  decide

/-- A variable that outgrows its entry leaves a nameless one behind in the iteration. -/
theorem moved_variable_leaves_nameless :
    ∃ m, fromIterIn (fun _ => none) [(nameA,noText)] = some m ∧
      ¬ Always EnvMap.change IterAgrees m [.set nameA nameB] := by
  refine ⟨_,rfl,fun h => ?_⟩
  have hnamed : ∀ p ∈ [(nameA,noText)], p.1 ≠ noText := by decide
  have hkey : (Change.set nameA nameB).key ≠ noText := by decide
  exact not_iterAgrees_step (Tidy.fromIterIn hnamed rfl) hkey (by decide) rfl (h.2 _ rfl)

/-! ### Building a map and reading it back -/

/-- The map is built without a panic; iterating it gives the pairs back in order, and lookups find
them and nothing else. -/
def RoundTrips (build : List (Str × Str) → Option EnvMap) (pairs : List (Str × Str)) : Prop :=
  ∃ m, build pairs = some m ∧ Iterates m.env pairs ∧
    (∀ p ∈ pairs, m.var p.1 = some (some p.2)) ∧ ∀ k ∉ pairs.map Prod.fst, m.var k = some none

/-- The entry `from_iter` writes for a pair. -/
def Entry.ofPair (p : Str × Str) : Entry := .fresh p.1 p.2

/-- One round of the loop of `from_iter`. -/
lemma fromIterLoop_cons {m : EnvMap} {es : List Entry} (hm : m.env = flat es) {key val : Str}
    (hk : m.envMap key = none) (rest : List (Str × Str)) :
    fromIterLoop m ((key,val)::rest) =
      if (flat es).length+entryLen key val ≤ isizeMax then
        fromIterLoop { m with
          env := flat (es++[.fresh key val])
          envMap := Function.update m.envMap key (some (flat es).length) } rest
      else none := by
  rw [fromIterLoop,hk,hm]
  by_cases hfit : (flat es).length+entryLen key val ≤ isizeMax
  · rw [pushEntry_flat es key val hfit,if_pos hfit]
    rfl
  · rw [pushEntry,if_neg hfit,if_neg hfit]
    rfl

lemma flat_push_length (es : List Entry) (key val : Str) :
    (flat (es++[.fresh key val])).length = (flat es).length+entryLen key val := by
  rw [← Entry.fresh_size,flat_length,flat_length]
  simp

/-- The loop goes through as long as the buffer may grow, and then the entries stand in order, each
under the offset in the index. -/
lemma fromIterLoop_flat {m : EnvMap} {es : List Entry} (hm : m.env = flat es)
    {pairs : List (Str × Str)} (hd : (pairs.map Prod.fst).Nodup)
    (hnew : ∀ p ∈ pairs, m.envMap p.1 = none)
    (hfit : (flat es).length+(pairs.map fun p => entryLen p.1 p.2).sum ≤ isizeMax) :
    ∃ t, fromIterLoop m pairs = some t ∧ t.env = flat (es++pairs.map Entry.ofPair) ∧
      (∀ k ∉ pairs.map Prod.fst, t.envMap k = m.envMap k) ∧
      ∀ j p, pairs[j]? = some p →
        t.envMap p.1 = some (start (es++pairs.map Entry.ofPair) (es.length+j)) := by
  induction pairs generalizing m es with
  | nil => exact ⟨m,rfl,by simpa using hm,fun _ _ => rfl,by simp⟩
  | cons p pairs ih =>
    obtain ⟨key,val⟩ := p
    simp only [List.map_cons,List.nodup_cons,List.sum_cons] at hd hfit
    have hk : m.envMap key = none := hnew (key,val) (by simp)
    have hpush := flat_push_length es key val
    have hrest := fresh_rest hd.1 hnew (some (flat es).length)
    let m' : EnvMap := { m with
      env := flat (es++[.fresh key val])
      envMap := Function.update m.envMap key (some (flat es).length) }
    have hm' : m'.env = flat (es++[.fresh key val]) := rfl
    obtain ⟨t,ht,henv,hother,hat⟩ := ih hm' hd.2 hrest (by omega)
    have happ : es++[Entry.fresh key val]++pairs.map Entry.ofPair =
        es++((key,val)::pairs).map Entry.ofPair := by
      rw [List.append_assoc]
      rfl
    rw [happ] at henv
    simp only [happ] at hat
    refine ⟨t,?_,henv,fun k hk' => ?_,fun j p hp => ?_⟩
    · rw [fromIterLoop_cons hm hk,if_pos (by omega)]
      exact ht
    · obtain ⟨hne,hk'⟩ := not_or.mp fun hc => hk' (List.mem_cons.mpr hc)
      rw [hother k hk']
      exact Function.update_of_ne hne _ _
    · cases j with
      | zero =>
        cases hp
        rw [hother key hd.1,Nat.add_zero,start_append le_rfl,start_length]
        exact Function.update_self _ _ _
      | succ j =>
        have hj := hat j p hp
        rwa [List.length_append,List.length_singleton,Nat.add_assoc,Nat.add_comm 1] at hj

/-- A map that was built had room for every entry. -/
lemma fits_of_fromIterLoop {m t : EnvMap} {es : List Entry} (hm : m.env = flat es)
    (hlen : (flat es).length ≤ isizeMax) {pairs : List (Str × Str)}
    (ht : fromIterLoop m pairs = some t) :
    (flat es).length+(pairs.map fun p => entryLen p.1 p.2).sum ≤ isizeMax := by
  induction pairs generalizing m es with
  | nil => simpa using hlen
  | cons p pairs ih =>
    obtain ⟨key,val⟩ := p
    cases hk : m.envMap key with
    | some off => simp [fromIterLoop,hk] at ht
    | none =>
      rw [fromIterLoop_cons hm hk] at ht
      split_ifs at ht with hfit
      have hpush := flat_push_length es key val
      have hlen' : (flat (es++[.fresh key val])).length ≤ isizeMax := by omega
      have hrest := ih rfl hlen' ht
      simp only [List.map_cons,List.sum_cons]
      omega

/-- Given an index to start from, whatever fits the buffer is read back as it was given. -/
lemma fromIterIn_roundTrips {pairs : List (Str × Str)} (hd : (pairs.map Prod.fst).Nodup)
    (hfit : (pairs.map fun p => entryLen p.1 p.2).sum ≤ isizeMax) :
    RoundTrips (fromIterIn fun _ => none) pairs := by
  have hnew : (⟨[],fun _ => none,[]⟩ : EnvMap).env = flat [] := rfl
  obtain ⟨t,ht,henv,hother,hat⟩ := fromIterLoop_flat hnew hd (fun _ _ => rfl)
    (by simpa [flat] using hfit)
  simp only [List.nil_append,List.length_nil,Nat.zero_add] at henv hat
  have hsize : ∀ p ∈ pairs, (Entry.ofPair p).size < 2^64 := by
    intro p hp
    have hle := List.single_le_sum (l := pairs.map fun p => entryLen p.1 p.2) (by simp) _
      (List.mem_map.mpr ⟨p,hp,rfl⟩)
    rw [Entry.ofPair,Entry.fresh_size]
    unfold isizeMax at hfit
    omega
  refine ⟨t,ht,?_,fun p hp => ?_,fun k hk => ?_⟩
  · have hit := iterates_map (f := id) hsize fun p _ => Entry.fresh_holds p.1 p.2
    rwa [List.map_id,← henv] at hit
  · obtain ⟨j,hj⟩ := List.mem_iff_getElem?.mp hp
    have he : (pairs.map Entry.ofPair)[j]? = some (.ofPair p) := by rw [List.getElem?_map,hj]; rfl
    exact var_flat henv (hat j p hj) he (Entry.fresh_holds p.1 p.2)
  · rw [EnvMap.var,hother k hk]

/-- With `RandomState::new` unimplemented there is no map to read back. Given an index to start
from, the format is read back as it was written exactly when it fits the buffer. -/
theorem roundTrips_iff_fits (pairs : List (Str × Str)) (hd : (pairs.map Prod.fst).Nodup) :
    ¬ RoundTrips fromIter pairs ∧
      (RoundTrips (fromIterIn fun _ => none) pairs ↔
        (pairs.map fun p => entryLen p.1 p.2).sum ≤ isizeMax) := by
  refine ⟨?_,fun ⟨m,hm,_⟩ => ?_,fromIterIn_roundTrips hd⟩
  · rintro ⟨m,hm,-⟩
    cases hm
  · have hnew : (⟨[],fun _ => none,[]⟩ : EnvMap).env = flat [] := rfl
    have hfit := fits_of_fromIterLoop hnew (Nat.zero_le _) hm
    simpa [flat] using hfit

/-- Three variables, one of them nameless and one without a value. -/
theorem roundTrips_iff_fits_three :
    RoundTrips (fromIterIn fun _ => none) [(nameB,nameA),(noText,nameA),(nameA,noText)] :=
  (roundTrips_iff_fits _ (by decide)).2.mpr (by decide)

/-- No list is read back, not even the empty one: the map is never built. -/
theorem nothing_built : fromIter [] = none ∧ ¬ RoundTrips fromIter [] := by
  refine ⟨rfl,?_⟩
  rintro ⟨m,hm,-⟩
  cases hm

end WinterLily.Env
