import WinterLily.Env.Layout

/-! `EnvMap` against the finite map it stands for. Every path of `set_var` keeps the buffer a
sequence of entries, except the one that reuses a free entry. -/
namespace WinterLily.Env
open WinterLily.Bytes WinterLily.Utf8 WinterLily.Transition

/-- The finite map. -/
abbrev Vars := Str → Option Str

/-- One change of the map; `extend` is a sequence of them. -/
inductive Change
  | set (key val : Str)
  | remove (key : Str)

inductive Op
  | setVar (key val : Str)
  | extend (pairs : List (Str × Str))
  | removeVar (key : Str)

def EnvMap.change (m : EnvMap) : Change → Option EnvMap
  | .set key val => m.setVar key val
  | .remove key => m.removeVar key

/-- The loop of `extend`. -/
def EnvMap.extend (m : EnvMap) : List (Str × Str) → Option EnvMap
  | [] => some m
  | (key,val)::rest => (m.setVar key val).bind fun m => m.extend rest

def EnvMap.apply (m : EnvMap) : Op → Option EnvMap
  | .setVar key val => m.setVar key val
  | .extend pairs => m.extend pairs
  | .removeVar key => m.removeVar key

def Op.changes : Op → List Change
  | .setVar key val => [.set key val]
  | .extend pairs => pairs.map fun (key,val) => .set key val
  | .removeVar key => [.remove key]

def Change.spec (vars : Vars) : Change → Vars
  | .set key val => Function.update vars key (some val)
  | .remove key => Function.update vars key none

/-- The value most recently set for each key. -/
def vars (pairs : List (Str × Str)) (ops : List Op) : Vars :=
  (pairs.map (fun (key,val) => Change.set key val)++ops.flatMap Op.changes).foldl Change.spec
    fun _ => none

/-- Building the map and then changing it does not panic, and lookups agree with the finite map. -/
def Refines (build : List (Str × Str) → Option EnvMap) (pairs : List (Str × Str))
    (ops : List Op) : Prop :=
  ∃ m, ((build pairs).bind fun m => run EnvMap.apply m ops) = some m ∧
    ∀ key, m.var key = some (vars pairs ops key)

lemma extend_eq_run (m : EnvMap) (pairs : List (Str × Str)) :
    m.extend pairs = run EnvMap.change m (pairs.map fun (key,val) => .set key val) := by
  induction pairs generalizing m with
  | nil => rfl
  | cons p pairs ih =>
    simp only [EnvMap.extend,List.map_cons,run_cons,EnvMap.change,ih]

lemma apply_eq_run (m : EnvMap) (op : Op) : m.apply op = run EnvMap.change m op.changes := by
  cases op with
  | setVar key val | removeVar key => simp [EnvMap.apply,Op.changes,EnvMap.change]
  | extend pairs => exact extend_eq_run m pairs

lemma run_apply (m : EnvMap) (ops : List Op) :
    run EnvMap.apply m ops = run EnvMap.change m (ops.flatMap Op.changes) := by
  induction ops generalizing m with
  | nil => rfl
  | cons op ops ih =>
    simp only [run_cons,List.flatMap_cons,run_append,apply_eq_run,ih]

/-- The buffer is the sequence of entries `es`, the index finds each variable in one of them, and
the free list holds starts of entries. -/
structure Layout (m : EnvMap) (vars : Vars) (es : List Entry) : Prop where
  env : m.env = flat es
  wf : ∀ e ∈ es, 2 ≤ e.body.length ∧ e.size < 2^64
  absent : ∀ k, m.envMap k = none → vars k = none
  present : ∀ k off, m.envMap k = some off →
    ∃ i e v, es[i]? = some e ∧ off = start es i ∧ e.Holds k v ∧ vars k = some v
  free : ∀ off ∈ m.freelist, ∃ i e, es[i]? = some e ∧ off = start es i

lemma Layout.size_at {m : EnvMap} {vars : Vars} {es : List Entry} (h : Layout m vars es) {i : ℕ}
    {e : Entry} (he : es[i]? = some e) : prefixAt m.env (start es i) = some e.size :=
  prefixAt_flat h.env he (h.wf e (List.mem_of_getElem? he)).2

theorem Layout.var {m : EnvMap} {vars : Vars} {es : List Entry} (h : Layout m vars es) (k : Str) :
    m.var k = some (vars k) := by
  cases hk : m.envMap k with
  | none => simp only [EnvMap.var,hk,h.absent k hk]
  | some off =>
    obtain ⟨i,e,v,he,rfl,hv,hspec⟩ := h.present k off hk
    rw [var_flat h.env hk he hv,hspec]

section Replace

variable {m : EnvMap} {vars : Vars} {es : List Entry} {i : ℕ} {e e' : Entry} {key v : Str}

/-- Replacing the entry of one key leaves the entries of the others where they are. -/
lemma Layout.others (h : Layout m vars es) (he : es[i]? = some e) (hv : e.Holds key v)
    (hs : e'.size = e.size) {k : Str} (hk : k ≠ key) {off : ℕ} (hoff : m.envMap k = some off) :
    ∃ j f w, (es.set i e')[j]? = some f ∧ off = start (es.set i e') j ∧ f.Holds k w ∧
      vars k = some w := by
  obtain ⟨j,f,w,hf,rfl,hw,hspec⟩ := h.present k off hoff
  have hij : i ≠ j := by
    rintro rfl
    rw [he] at hf
    cases hf
    exact hk (hw.unique hv)
  exact ⟨j,f,w,by rw [List.getElem?_set_ne hij,hf],(start_set he hs j).symm,hw,hspec⟩

lemma Layout.free_set (h : Layout m vars es) (he : es[i]? = some e) (hs : e'.size = e.size) :
    ∀ off ∈ m.freelist, ∃ j f, (es.set i e')[j]? = some f ∧ off = start (es.set i e') j := by
  intro off hoff
  obtain ⟨j,f,hf,rfl⟩ := h.free off hoff
  rw [← start_set he hs j]
  by_cases hij : i = j
  · subst j
    obtain ⟨hi,-⟩ := List.getElem?_eq_some_iff.mp he
    exact ⟨i,e',by simp [hi],rfl⟩
  · exact ⟨j,f,by rw [List.getElem?_set_ne hij,hf],rfl⟩

end Replace

/-- The value over the old one. -/
lemma Layout.overwrite {m : EnvMap} {vars : Vars} {es : List Entry} (h : Layout m vars es)
    {key : Str} {off tlen : ℕ} (hk : m.envMap key = some off) (ht : prefixAt m.env off = some tlen)
    (val : Str) (hle : entryLen key val ≤ tlen) :
    ∃ m' es', m.overwrite key val off = some m' ∧
      Layout m' (Function.update vars key (some val)) es' := by
  obtain ⟨i,e,v,he,rfl,hv,-⟩ := h.present key off hk
  rw [h.size_at he,Option.some.injEq] at ht
  subst ht
  have hs := Entry.revalued_size hle
  refine ⟨_,es.set i (e.revalued key val),overwrite_flat h.env he hv hle,rfl,wf_set h.wf he hs,?_,?_,
    h.free_set he hs⟩
  · intro k hk'
    have hne : k ≠ key := by
      rintro rfl
      rw [hk] at hk'
      cases hk'
    rw [Function.update_of_ne hne]
    exact h.absent k hk'
  · intro k off' hoff'
    by_cases hne : k = key
    · subst k
      rw [hk] at hoff'
      cases hoff'
      obtain ⟨hi,-⟩ := List.getElem?_eq_some_iff.mp he
      exact ⟨i,_,val,by simp [hi],(start_set he hs i).symm,e.revalued_holds key val,by simp⟩
    · rw [Function.update_of_ne hne]
      exact h.others he hv hs hne hoff'

/-- Removing a variable that is not set does nothing. -/
lemma change_remove_unset {m t : EnvMap} {key : Str} (hk : m.envMap key = none)
    (ht : m.change (.remove key) = some t) : m = t := by
  simpa [EnvMap.change,EnvMap.removeVar,hk] using ht


/-- Emptying the entry of a key that leaves the index. -/
lemma Layout.removeVar {m : EnvMap} {vars : Vars} {es : List Entry} (h : Layout m vars es)
    (key : Str) :
    ∃ m' es', m.removeVar key = some m' ∧ Layout m' (Function.update vars key none) es' := by
  cases hk : m.envMap key with
  | none =>
    refine ⟨m,es,by simp only [EnvMap.removeVar,hk],?_⟩
    rwa [← h.absent key hk,Function.update_eq_self]
  | some off =>
    obtain ⟨i,e,v,he,rfl,hv,-⟩ := h.present key off hk
    have hwf := (h.wf e (List.mem_of_getElem? he)).1
    have hs := Entry.blanked_size hwf
    refine ⟨_,es.set i e.blanked,removeVar_flat h.env hk he hwf,rfl,wf_set h.wf he hs,?_,?_,
      h.free_set he hs⟩
    · intro k hk'
      change Function.update m.envMap key none k = none at hk'
      by_cases hne : k = key
      · simp [hne]
      · rw [Function.update_of_ne hne] at hk' ⊢
        exact h.absent k hk'
    · intro k off' hoff'
      change Function.update m.envMap key none k = some off' at hoff'
      by_cases hne : k = key
      · simp [hne] at hoff'
      · rw [Function.update_of_ne hne] at hoff' ⊢
        exact h.others he hv hs hne hoff'

lemma fresh_wf (key val : Str) {n : ℕ} (h : n+entryLen key val ≤ isizeMax) :
    2 ≤ (Entry.fresh key val).body.length ∧ (Entry.fresh key val).size < 2^64 := by
  rw [Entry.fresh_size]
  unfold isizeMax at h
  simp only [Entry.fresh,List.length_append,List.length_cons,List.length_nil]
  omega

/-- A new entry at the end, for a key that no other entry holds any more. -/
lemma Layout.push {m : EnvMap} {vars : Vars} {es : List Entry} {key : Str} (val : Str)
    (hwf : ∀ e ∈ es, 2 ≤ e.body.length ∧ e.size < 2^64)
    (hfit : (flat es).length+entryLen key val ≤ isizeMax)
    (habsent : ∀ k, k ≠ key → m.envMap k = none → vars k = none)
    (hpresent : ∀ k off, k ≠ key → m.envMap k = some off →
      ∃ i e v, es[i]? = some e ∧ off = start es i ∧ e.Holds k v ∧ vars k = some v)
    (hfree : ∀ off ∈ m.freelist, ∃ i e, es[i]? = some e ∧ off = start es i) :
    Layout ⟨flat (es++[.fresh key val]),Function.update m.envMap key (some (flat es).length),
      m.freelist⟩ (Function.update vars key (some val)) (es++[.fresh key val]) := by
  have hleft : ∀ {i : ℕ} {e : Entry}, es[i]? = some e →
      (es++[.fresh key val])[i]? = some e ∧ start (es++[.fresh key val]) i = start es i := by
    intro i e he
    obtain ⟨hi,-⟩ := List.getElem?_eq_some_iff.mp he
    exact ⟨by rw [List.getElem?_append_left hi,he],start_append (by omega) _⟩
  refine ⟨rfl,?_,?_,?_,?_⟩
  · intro e he
    rcases List.mem_append.mp he with he | he
    · exact hwf e he
    · rw [List.mem_singleton.mp he]
      exact fresh_wf key val hfit
  · intro k hk
    change Function.update m.envMap key _ k = none at hk
    by_cases hne : k = key
    · simp [hne] at hk
    · rw [Function.update_of_ne hne] at hk ⊢
      exact habsent k hne hk
  · intro k off hoff
    change Function.update m.envMap key _ k = some off at hoff
    by_cases hne : k = key
    · subst k
      simp only [Function.update_self,Option.some.injEq] at hoff ⊢
      refine ⟨es.length,.fresh key val,val,by simp,?_,Entry.fresh_holds key val,rfl⟩
      rw [← hoff,start_append (le_refl _),start_length]
    · rw [Function.update_of_ne hne] at hoff ⊢
      obtain ⟨i,e,v,he,rfl,hv,hspec⟩ := hpresent k off hne hoff
      exact ⟨i,e,v,(hleft he).1,(hleft he).2.symm,hv,hspec⟩
  · intro off hoff
    obtain ⟨i,e,he,rfl⟩ := hfree off hoff
    exact ⟨i,e,(hleft he).1,(hleft he).2.symm⟩

lemma Layout.append {m : EnvMap} {vars : Vars} {es : List Entry} (h : Layout m vars es)
    (key val : Str) (hfit : m.env.length+entryLen key val ≤ isizeMax) :
    ∃ m' es', m.append key val = some m' ∧
      Layout m' (Function.update vars key (some val)) es' := by
  rw [h.env] at hfit
  cases hk : m.envMap key with
  | none =>
    exact ⟨_,_,append_new h.env hk hfit,Layout.push val h.wf hfit (fun k _ => h.absent k)
      (fun k off _ => h.present k off) h.free⟩
  | some off =>
    obtain ⟨i,e,v,he,rfl,hv,-⟩ := h.present key off hk
    obtain ⟨hi,-⟩ := List.getElem?_eq_some_iff.mp he
    have hwf := (h.wf e (List.mem_of_getElem? he)).1
    have hs := Entry.blanked_size hwf
    have hlen : (flat (es.set i e.blanked)).length = (flat es).length := by
      rw [← start_length,start_set he hs,List.length_set,start_length]
    refine ⟨_,es.set i e.blanked++[.fresh key val],append_moved h.env hk he hwf hfit,?_⟩
    rw [← hlen]
    refine Layout.push (m := { m with freelist := m.freelist++[start es i] }) val (wf_set h.wf he hs)
      (by rwa [hlen]) (fun k _ => h.absent k) (fun k off hne => h.others he hv hs hne) ?_
    intro off hoff
    rcases List.mem_append.mp hoff with hoff | hoff
    · exact h.free_set he hs off hoff
    · refine ⟨i,e.blanked,by simp [hi],?_⟩
      rw [List.mem_singleton.mp hoff,start_set he hs]

/-- The value fits into the entry the key has. -/
def EnvMap.fitsInPlace (m : EnvMap) (key val : Str) : Bool :=
  match m.envMap key with
  | some off => (prefixAt m.env off).any fun tlen => entryLen key val ≤ tlen
  | none => false

/-- The change stays off the free list: the value goes over the old one, or every free entry is
longer than the new one and the buffer has room for it. -/
def Plain (m : EnvMap) : Change → Prop
  | .set key val => m.fitsInPlace key val = true ∨
      (∀ off ∈ m.freelist, ((prefixAt m.env off).any fun tlen => entryLen key val < tlen) = true) ∧
        m.env.length+entryLen key val ≤ isizeMax
  | .remove _ => True

instance (m : EnvMap) : DecidablePred (Plain m)
  | .set _ _ => inferInstanceAs (Decidable (_ ∨ _))
  | .remove _ => inferInstanceAs (Decidable True)

lemma findFree_none {env : List Byte} {elen : ℕ} {l : List ℕ}
    (h : ∀ off ∈ l, ((prefixAt env off).any fun tlen => elen < tlen) = true) (i : ℕ) :
    EnvMap.findFree env elen i l = some none := by
  induction l generalizing i with
  | nil => rfl
  | cons off l ih =>
    obtain ⟨tlen,ht,hlt⟩ := (Option.any_eq_true _ _).mp (h off (by simp))
    have hnot : ¬ tlen ≤ elen := by simpa using hlt
    simp only [EnvMap.findFree,ht,Option.bind_eq_bind,Option.bind_some,hnot,if_false]
    exact ih (fun off' hoff' => h off' (by simp [hoff'])) (i+1)

lemma Layout.setElsewhere {m : EnvMap} {vars : Vars} {es : List Entry} (h : Layout m vars es)
    {key val : Str}
    (hfree : ∀ off ∈ m.freelist,
      ((prefixAt m.env off).any fun tlen => entryLen key val < tlen) = true)
    (hfit : m.env.length+entryLen key val ≤ isizeMax) :
    ∃ m' es', m.setElsewhere key val = some m' ∧
      Layout m' (Function.update vars key (some val)) es' := by
  obtain ⟨m',es',hm',hl⟩ := h.append key val hfit
  refine ⟨m',es',?_,hl⟩
  simp only [EnvMap.setElsewhere,findFree_none hfree,Option.bind_eq_bind,Option.bind_some,hm']

/-- One change off the free list does not panic and follows the finite map. -/
theorem Layout.change {m : EnvMap} {vars : Vars} {es : List Entry} (h : Layout m vars es)
    {ch : Change} (hc : Plain m ch) :
    ∃ m' es', m.change ch = some m' ∧ Layout m' (ch.spec vars) es' := by
  cases ch with
  | remove key => exact h.removeVar key
  | set key val =>
    simp only [EnvMap.change,EnvMap.setVar,Change.spec]
    cases hk : m.envMap key with
    | none =>
      have hnot : m.fitsInPlace key val = false := by simp [EnvMap.fitsInPlace,hk]
      obtain ⟨hfree,hfit⟩ := hc.resolve_left (by simp [hnot])
      exact h.setElsewhere hfree hfit
    | some off =>
      obtain ⟨i,e,v,he,rfl,-,-⟩ := h.present key off hk
      have ht := h.size_at he
      simp only [ht,Option.bind_eq_bind,Option.bind_some]
      by_cases hle : entryLen key val ≤ e.size
      · simp only [hle,if_true]
        exact h.overwrite hk ht val hle
      · simp only [hle,if_false]
        have hnot : m.fitsInPlace key val = false := by simp [EnvMap.fitsInPlace,hk,ht,hle]
        obtain ⟨hfree,hfit⟩ := hc.resolve_left (by simp [hnot])
        exact h.setElsewhere hfree hfit

/-- The keys after the first one are still fresh when that one is indexed. -/
lemma fresh_rest {index : Str → Option ℕ} {key val : Str} {pairs : List (Str × Str)}
    (hkey : key ∉ pairs.map Prod.fst) (hnew : ∀ p ∈ (key,val)::pairs, index p.1 = none)
    (off : Option ℕ) : ∀ q ∈ pairs, Function.update index key off q.1 = none := by
  intro q hq
  have hne : q.1 ≠ key := fun hqk => hkey (List.mem_map.mpr ⟨q,hq,hqk⟩)
  rw [Function.update_of_ne hne]
  exact hnew q (List.mem_cons_of_mem _ hq)

/-- The loop of `from_iter` on fresh keys lays the entries out one after another. -/
lemma Layout.fromIterLoop {m : EnvMap} {vars : Vars} {es : List Entry} (h : Layout m vars es)
    {pairs : List (Str × Str)} (hd : (pairs.map Prod.fst).Nodup)
    (hnew : ∀ p ∈ pairs, m.envMap p.1 = none)
    (hfit : m.env.length+(pairs.map fun p => entryLen p.1 p.2).sum ≤ isizeMax) :
    ∃ m' es', fromIterLoop m pairs = some m' ∧
      Layout m' ((pairs.map fun (key,val) => Change.set key val).foldl Change.spec vars) es' := by
  induction pairs generalizing m vars es with
  | nil => exact ⟨m,es,rfl,h⟩
  | cons p pairs ih =>
    obtain ⟨key,val⟩ := p
    simp only [List.map_cons,List.nodup_cons,List.sum_cons] at hd hfit
    have hk : m.envMap key = none := hnew (key,val) (by simp)
    have hfit₁ : (flat es).length+entryLen key val ≤ isizeMax := by
      rw [← h.env]
      omega
    have hpush := Layout.push (m := m) val h.wf hfit₁ (fun k _ => h.absent k)
      (fun k off _ => h.present k off) h.free
    have hnew₁ := fresh_rest hd.1 hnew (some (flat es).length)
    have hlen : (flat (es++[Entry.fresh key val])).length = m.env.length+entryLen key val := by
      rw [h.env,← Entry.fresh_size,flat_length,flat_length]
      simp
    obtain ⟨m',es',hm',hl⟩ := ih hpush hd.2 hnew₁ (by rw [hlen]; omega)
    refine ⟨m',es',?_,hl⟩
    simp only [Env.fromIterLoop,hk,h.env,pushEntry_flat es key val hfit₁]
    exact hm'

/-- With `RandomState::new` unimplemented no map is ever built. Given an index to start from, the
map refines the finite one in every run that fits the buffer and stays off the free list. -/
theorem envMap_refines (pairs : List (Str × Str)) (ops : List Op) :
    ¬ Refines fromIter pairs ops ∧
      ((pairs.map Prod.fst).Nodup →
        (pairs.map fun p => entryLen p.1 p.2).sum ≤ isizeMax →
        (∀ m, fromIterIn (fun _ => none) pairs = some m →
          Admits EnvMap.change Plain m (ops.flatMap Op.changes)) →
        Refines (fromIterIn fun _ => none) pairs ops) := by
  refine ⟨?_,fun hd hfit hplain => ?_⟩
  · rintro ⟨m,hm,-⟩
    cases hm
  have hempty : Layout ⟨[],fun _ => none,[]⟩ (fun _ => none) [] :=
    ⟨rfl,by simp,fun _ _ => rfl,nofun,by simp⟩
  obtain ⟨m₀,es₀,hm₀,hl₀⟩ := hempty.fromIterLoop hd (fun _ _ => rfl) (by simpa using hfit)
  obtain ⟨m,hm,es,hl⟩ := run_simulates (R := fun m vars => ∃ es, Layout m vars es) Change.spec
    (C := Plain)
    (fun m vars ch ⟨es,hl⟩ hc => by
      obtain ⟨m',es',hm',hl'⟩ := hl.change hc
      exact ⟨m',hm',es',hl'⟩) ⟨es₀,hl₀⟩ (hplain m₀ hm₀)
  refine ⟨m,?_,fun key => ?_⟩
  · have hb : fromIterIn (fun _ => none) pairs = some m₀ := hm₀
    rw [hb,Option.bind_some,run_apply,hm]
  · rw [hl.var key,vars,List.foldl_append]

/-- One ASCII character. -/
def letter (b : Byte) (h : char1 b = true) : Str := ⟨[b],by simp [isUtf8,h]⟩

def nameA : Str := letter 0x41#8 rfl
def nameB : Str := letter 0x42#8 rfl
def noText : Str := ⟨[],rfl⟩

theorem envMap_refines_removeA :
    Refines (fromIterIn fun _ => none) [(nameA,nameB)]
      [.setVar nameA noText,.extend [(nameB,nameA)],.removeVar nameA] := by
  apply (envMap_refines _ _).2 (by decide) (by decide)
  intro m hm
  have hbuilt : fromIterIn (fun _ => none) [(nameA,nameB)] =
      some ⟨toLE 8 12++[0x41#8,0xFE#8,0x42#8,0xFF#8],
        Function.update (fun _ => none) nameA (some 0),[]⟩ := rfl
  rw [hbuilt] at hm
  cases hm
  decide

/-- The only panic-free builder is a hypothetical one, and with it the second key taken from the
free list panics: the window `..0` has no room for it. -/
theorem envMap_panics :
    fromIter [(nameA,noText)] = none ∧
      ¬ Refines fromIter [(nameA,noText)] [.setVar nameA nameA,.setVar nameB noText] ∧
      (fromIterIn (fun _ => none) [(nameA,noText)]).isSome = true ∧
      ((fromIterIn (fun _ => none) [(nameA,noText)]).bind fun m =>
        run EnvMap.apply m [.setVar nameA nameA,.setVar nameB noText]).isNone = true := by
  refine ⟨rfl,?_,by decide,by decide⟩
  rintro ⟨m,hm,-⟩
  cases hm

end WinterLily.Env
