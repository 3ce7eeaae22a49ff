import WinterLily.Env.Map

/-! The buffer as a sequence of entries: a length prefix and that many bytes with it. Reading a
prefix, emptying an entry and writing a value over another stay inside one entry. -/
namespace WinterLily.Env
open WinterLily.Bytes WinterLily.Utf8

/-- An entry, without its prefix. -/
structure Entry where
  body : List Byte

namespace Entry

def size (e : Entry) : ℕ := wordSize+e.body.length

def bytes (e : Entry) : List Byte := toLE wordSize e.size++e.body

/-- The entry binds `k` to `v`; what follows the terminator is padding. -/
def Holds (e : Entry) (k v : Str) : Prop :=
  ∃ tail, e.body = k.1++keyTerm::(v.1++entryTerm::tail)

/-- The entry after `blank`. -/
def blanked (e : Entry) : Entry := ⟨empty++e.body.drop 2⟩

/-- The entry after a value was written over the one it held. -/
def revalued (e : Entry) (k v : Str) : Entry :=
  ⟨k.1++keyTerm::(v.1++entryTerm::e.body.drop (k.1.length+1+(v.1.length+1)))⟩

/-- The entry of `pushEntry`. -/
def fresh (k v : Str) : Entry := ⟨k.1++keyTerm::(v.1++[entryTerm])⟩

@[simp] lemma bytes_length (e : Entry) : e.bytes.length = e.size := by simp [bytes,size]

lemma blanked_size {e : Entry} (h : 2 ≤ e.body.length) : e.blanked.size = e.size := by
  simp [size,blanked,empty]
  omega

lemma revalued_size {e : Entry} {k v : Str} (h : entryLen k v ≤ e.size) :
    (e.revalued k v).size = e.size := by
  simp only [size,revalued,entryLen,List.length_append,List.length_cons,List.length_drop] at h ⊢
  omega

lemma revalued_holds (e : Entry) (k v : Str) : (e.revalued k v).Holds k v := ⟨_,rfl⟩

lemma fresh_size (k v : Str) : (fresh k v).size = entryLen k v := by
  simp [size,fresh,entryLen]
  omega

lemma fresh_holds (k v : Str) : (fresh k v).Holds k v := ⟨[],rfl⟩

end Entry

/-- The buffer the entries make up. -/
def flat (es : List Entry) : List Byte := es.flatMap Entry.bytes

/-- Where entry `i` starts. -/
def start (es : List Entry) (i : ℕ) : ℕ := ((es.map Entry.size).take i).sum

lemma flat_length (es : List Entry) : (flat es).length = (es.map Entry.size).sum := by
  induction es with
  | nil => rfl
  | cons e es ih =>
    simp only [flat,List.flatMap_cons,List.length_append,List.map_cons,List.sum_cons,
      Entry.bytes_length] at *
    rw [ih]

lemma start_length (es : List Entry) : start es es.length = (flat es).length := by
  rw [flat_length,start,List.take_of_length_le (by simp)]

lemma start_succ {es : List Entry} {i : ℕ} {e : Entry} (h : es[i]? = some e) :
    start es (i+1) = start es i+e.size := by
  obtain ⟨hi,rfl⟩ := List.getElem?_eq_some_iff.mp h
  simp [start,List.take_add_one,hi]

lemma start_mono (es : List Entry) {i j : ℕ} (h : i ≤ j) : start es i ≤ start es j := by
  have htake : ((es.map Entry.size).take i).take i = ((es.map Entry.size).take j).take i := by
    rw [List.take_take,List.take_take,min_self,min_eq_left h]
  rw [List.take_take,min_self] at htake
  unfold start
  rw [htake]
  calc _ ≤ _ := Nat.le_add_right _ (((es.map Entry.size).take j).drop i).sum
    _ = _ := by rw [← List.sum_append,List.take_append_drop]

/-- No entry is empty, so each starts after the ones before it. -/
lemma start_lt {es : List Entry} {i j : ℕ} {e : Entry} (h : es[i]? = some e) (hij : i < j) :
    start es i < start es j := by
  have hsucc := start_succ h
  have hmono : start es (i+1) ≤ start es j := start_mono es hij
  unfold Entry.size wordSize at hsucc
  omega

lemma start_lt_length {es : List Entry} {i : ℕ} {e : Entry} (h : es[i]? = some e) :
    start es i < (flat es).length := by
  obtain ⟨hi,-⟩ := List.getElem?_eq_some_iff.mp h
  rw [← start_length]
  exact start_lt h hi

lemma start_inj {es : List Entry} {i j : ℕ} {e f : Entry} (hi : es[i]? = some e)
    (hj : es[j]? = some f) (h : start es i = start es j) : i = j := by
  by_contra hne
  cases Nat.lt_or_gt_of_ne hne with
  | inl hlt => exact absurd h (start_lt hi hlt).ne
  | inr hlt => exact absurd h (start_lt hj hlt).ne'

lemma start_append {es : List Entry} {i : ℕ} (h : i ≤ es.length) (fs : List Entry) :
    start (es++fs) i = start es i := by
  simp [start,List.take_append_of_le_length,h]

lemma start_set {es : List Entry} {i : ℕ} {e e' : Entry} (h : es[i]? = some e)
    (hs : e'.size = e.size) (j : ℕ) : start (es.set i e') j = start es j := by
  have hmap : (es.set i e').map Entry.size = es.map Entry.size := by
    rw [List.map_set,hs]
    apply List.ext_getElem?
    intro k
    by_cases hk : i = k
    · subst k
      obtain ⟨hi,he⟩ := List.getElem?_eq_some_iff.mp h
      simp [hi,he]
    · simp [hk]
  rw [start,hmap,start]

lemma set_cases {es : List Entry} {i j : ℕ} {e' f : Entry} (h : (es.set i e')[j]? = some f) :
    j = i ∧ f = e' ∨ j ≠ i ∧ es[j]? = some f := by
  by_cases hij : i = j
  · subst j
    obtain ⟨hi,hf⟩ := List.getElem?_eq_some_iff.mp h
    rw [List.getElem_set_self] at hf
    exact .inl ⟨rfl,hf.symm⟩
  · rw [List.getElem?_set_ne hij] at h
    exact .inr ⟨fun hji => hij hji.symm,h⟩

lemma set_at {es : List Entry} {i : ℕ} {e e' : Entry} (h : es[i]? = some e) :
    (es.set i e')[i]? = some e' := by
  obtain ⟨hi,-⟩ := List.getElem?_eq_some_iff.mp h
  simp [hi]

lemma push_cases {es : List Entry} {j : ℕ} {e' f : Entry} (h : (es++[e'])[j]? = some f) :
    es[j]? = some f ∨ j = es.length ∧ f = e' := by
  by_cases hj : j < es.length
  · rw [List.getElem?_append_left hj] at h
    exact .inl h
  · rw [List.getElem?_append_right (by omega),List.getElem?_singleton] at h
    split at h
    · next h0 =>
      cases h
      exact .inr ⟨by omega,rfl⟩
    · cases h

lemma wf_set {es : List Entry} {i : ℕ} {e e' : Entry} (hwf : ∀ f ∈ es, 2 ≤ f.body.length ∧ f.size < 2^64)
    (he : es[i]? = some e) (hs : e'.size = e.size) :
    ∀ f ∈ es.set i e', 2 ≤ f.body.length ∧ f.size < 2^64 := by
  intro f hf
  cases List.mem_or_eq_of_mem_set hf with
  | inl hf => exact hwf f hf
  | inr hf =>
    have := hwf e (List.mem_of_getElem? he)
    subst hf
    unfold Entry.size at hs this ⊢
    omega

/-- The bytes before and after entry `i` do not depend on what it holds. -/
lemma flat_set {es : List Entry} {i : ℕ} {e : Entry} (h : es[i]? = some e) :
    ∃ a c, a.length = start es i ∧ flat es = a++e.bytes++c ∧
      ∀ e', flat (es.set i e') = a++e'.bytes++c := by
  obtain ⟨hi,rfl⟩ := List.getElem?_eq_some_iff.mp h
  refine ⟨flat (es.take i),flat (es.drop (i+1)),?_,?_,fun e' => ?_⟩
  · rw [flat_length,start,List.map_take]
  · have hsplit : es = es.take i++es[i]::es.drop (i+1) := by
      rw [← List.drop_eq_getElem_cons hi,List.take_append_drop]
    calc flat es = flat (es.take i++es[i]::es.drop (i+1)) := by rw [← hsplit]
      _ = flat (es.take i)++es[i].bytes++flat (es.drop (i+1)) := by
        rw [flat,List.flatMap_append,List.flatMap_cons,← List.append_assoc]
        rfl
  · rw [List.set_eq_take_append_cons_drop,if_pos hi]
    simp [flat]

section Entry

variable (a c : List Byte) (e : Entry)

lemma prefixAt_entry (h : e.size < 2^64) : prefixAt (a++e.bytes++c) a.length = some e.size := by
  have hle : (whole (a++e.bytes++c)).lo+a.length ≤ (whole (a++e.bytes++c)).hi := by
    simp only [whole,List.length_append]
    omega
  unfold prefixAt
  rw [after_some hle]
  simp only [whole,Nat.zero_add,Option.bind_eq_bind,Option.bind_some]
  rw [get_to_end,List.append_assoc,List.drop_left]
  have htake : (e.bytes++c).take wordSize = toLE wordSize e.size := by
    simp [Entry.bytes]
  rw [htake,ofLE_toLE _ _ (by simpa [wordSize] using h),if_pos]
  simp [Entry.size]
  omega

lemma blank_entry (h : 2 ≤ e.body.length) :
    blank (a++e.bytes++c) a.length = some (a++e.blanked.bytes++c) := by
  obtain ⟨body⟩ := e
  match body,h with
  | x::y::rest,_ =>
    let p := toLE wordSize (wordSize+(rest.length+2))
    have hsplit : a++(⟨x::y::rest⟩ : Entry).bytes++c = (a++p)++[x,y]++(rest++c) := by
      simp [Entry.bytes,Entry.size,p]
    have hresult : a++(⟨x::y::rest⟩ : Entry).blanked.bytes++c = (a++p)++empty++(rest++c) := by
      simp [Entry.bytes,Entry.size,Entry.blanked,empty,p]
    have hp : p.length = wordSize := toLE_length _ _
    rw [hsplit,hresult]
    unfold blank
    rw [after_some (by simp [whole,hp])]
    simp only [Option.bind_eq_bind,Option.bind_some]
    rw [upTo_some (by simp [whole,hp]; omega)]
    simp only [Option.bind_some]
    apply copyFrom_append
    · simp [whole,hp]
    · simp [whole,hp]
    · rfl

/-- Writing `val` and its terminator over the value that follows the key. -/
lemma putValue_entry (key val : Str) (rest : List Byte) (h : val.1.length < rest.length)
    (he : e.body = key.1++keyTerm::rest) :
    (((whole (a++e.bytes++c)).after a.length).bind fun ptr =>
      (ptr.after (wordSize+1+key.1.length)).bind fun ptr => putValue ptr (a++e.bytes++c) val) =
    some (a++(⟨key.1++keyTerm::(val.1++entryTerm::rest.drop (val.1.length+1))⟩ : Entry).bytes++c) := by
  obtain ⟨body⟩ := e
  subst he
  obtain ⟨old,x,tail,rfl,hold⟩ : ∃ old x tail, rest = old++x::tail ∧ old.length = val.1.length := by
    refine ⟨rest.take val.1.length,rest[val.1.length],rest.drop (val.1.length+1),?_,by simp; omega⟩
    rw [← List.drop_eq_getElem_cons h,List.take_append_drop]
  let p := toLE wordSize (Entry.size ⟨key.1++keyTerm::(old++x::tail)⟩)
  let front := a++p++key.1++[keyTerm]
  have hp : p.length = wordSize := toLE_length _ _
  have hsplit : a++(⟨key.1++keyTerm::(old++x::tail)⟩ : Entry).bytes++c =
      front++old++(x::(tail++c)) := by
    simp [Entry.bytes,front,p]
  have hdrop : (old++x::tail).drop (val.1.length+1) = tail := by
    rw [← hold]
    simp [List.drop_append]
  have hresult : a++(⟨key.1++keyTerm::(val.1++entryTerm::(old++x::tail).drop
      (val.1.length+1))⟩ : Entry).bytes++c = (front++val.1)++entryTerm::(tail++c) := by
    simp [Entry.bytes,Entry.size,front,p,hdrop,hold]
  have hfront : front.length = a.length+(wordSize+1+key.1.length) := by
    simp [front,hp]
    omega
  rw [hresult,hsplit,after_some (by simp [whole]; omega)]
  simp only [Option.bind_some]
  rw [after_some (by simp [whole]; omega)]
  simp only [Option.bind_some,putValue,Option.bind_eq_bind]
  rw [upTo_some (by simp [whole]; omega)]
  simp only [Option.bind_some,whole,Nat.zero_add]
  rw [copyFrom_append front old (x::(tail++c)) val.1 hfront.symm (by simp [hfront,hold]) hold.symm]
  simp only [Option.bind_some]
  apply setAt_append
  · simp [hfront]
  · simp
    omega

/-- Reading past the key up to the terminator gives the value back. -/
lemma value_entry {key val : Str} (he : e.Holds key val) :
    ∃ tail, ((whole (a++e.bytes++c)).after (a.length+wordSize)).bind
      (fun ptr => (ptr.after (key.1.length+1)).map fun ptr => ptr.get (a++e.bytes++c)) =
        some (val.1++entryTerm::tail) := by
  obtain ⟨tail,hb⟩ := he
  let p := toLE wordSize e.size
  let front := a++p++key.1++[keyTerm]
  have hp : p.length = wordSize := toLE_length _ _
  have hsplit : a++e.bytes++c = front++(val.1++entryTerm::(tail++c)) := by
    simp [Entry.bytes,hb,front,p]
  have hfront : front.length = a.length+wordSize+(key.1.length+1) := by
    simp [front,hp]
    omega
  refine ⟨tail++c,?_⟩
  rw [hsplit,after_some (by simp [whole]; omega)]
  simp only [Option.bind_some]
  rw [after_some (by simp [whole]; omega)]
  simp only [Option.map_some,whole,Nat.zero_add,get_to_end]
  rw [← hfront,List.drop_left]

end Entry

lemma takeWhile_ne_append {a r : List Byte} {x : Byte} (h : x ∉ a) :
    (a++x::r).takeWhile (· != x) = a := by
  rw [List.takeWhile_append_of_pos]
  · simp
  · intro y hy
    have : y ≠ x := fun hyx => h (hyx ▸ hy)
    simpa using this

lemma keyTerm_notMem (s : Str) : keyTerm ∉ s.1 := fun h => absurd (isUtf8_le s.2 _ h) (by decide)

lemma entryTerm_notMem (s : Str) : entryTerm ∉ s.1 :=
  fun h => absurd (isUtf8_le s.2 _ h) (by decide)

/-- An entry binds one key. -/
lemma Entry.Holds.unique {e : Entry} {k k' v v' : Str} (h : e.Holds k v) (h' : e.Holds k' v') :
    k = k' := by
  obtain ⟨tail,hb⟩ := h
  obtain ⟨tail',hb'⟩ := h'
  apply Subtype.ext
  rw [← takeWhile_ne_append (r := v.1++entryTerm::tail) (keyTerm_notMem k),← hb,hb',
    takeWhile_ne_append (keyTerm_notMem k')]

/-- The first `x` of a buffer that starts with bytes other than `x`. -/
lemma findIdx_append_cons {a : List Byte} {x : Byte} (h : x ∉ a) (r : List Byte) :
    (a++x::r).findIdx? (· == x) = some a.length := by
  rw [List.findIdx?_append]
  have hnone : a.findIdx? (· == x) = none := by
    rw [List.findIdx?_eq_none_iff]
    intro y hy
    have : y ≠ x := fun hyx => h (hyx ▸ hy)
    simpa using this
  simp [hnone,List.findIdx?_cons]

section Operations

variable {m : EnvMap} {es : List Entry} {i : ℕ} {e : Entry} {key v : Str}

lemma prefixAt_flat (hm : m.env = flat es) (he : es[i]? = some e) (hs : e.size < 2^64) :
    prefixAt m.env (start es i) = some e.size := by
  obtain ⟨a,c,ha,hflat,-⟩ := flat_set he
  rw [hm,hflat,← ha]
  exact prefixAt_entry a c e hs

lemma var_flat (hm : m.env = flat es) (hk : m.envMap key = some (start es i))
    (he : es[i]? = some e) (hv : e.Holds key v) : m.var key = some (some v) := by
  obtain ⟨a,c,ha,hflat,-⟩ := flat_set he
  obtain ⟨tail,hread⟩ := value_entry a c e hv
  rw [← hflat,← hm,ha] at hread
  obtain ⟨ptr,hptr,hread⟩ := Option.bind_eq_some_iff.mp hread
  obtain ⟨ptr',hptr',hget⟩ := Option.map_eq_some_iff.mp hread
  simp only [EnvMap.var,hk,hptr,hptr',hget,Option.bind_eq_bind,Option.bind_some,
    findIdx_append_cons (entryTerm_notMem v)]
  simp [v.2]

lemma blank_flat (he : es[i]? = some e) (h : 2 ≤ e.body.length) :
    blank (flat es) (start es i) = some (flat (es.set i e.blanked)) := by
  obtain ⟨a,c,ha,hflat,hset⟩ := flat_set he
  rw [hflat,hset,← ha]
  exact blank_entry a c e h

/-- The value over the old one: only the entry of the key changes. -/
lemma overwrite_flat (hm : m.env = flat es) (he : es[i]? = some e) (hv : e.Holds key v) {val : Str}
    (hle : entryLen key val ≤ e.size) :
    m.overwrite key val (start es i) = some { m with env := flat (es.set i (e.revalued key val)) } := by
  obtain ⟨tail,hb⟩ := hv
  obtain ⟨a,c,ha,hflat,hset⟩ := flat_set he
  have hlen : val.1.length < (v.1++entryTerm::tail).length := by
    simp only [entryLen,Entry.size,hb,List.length_append,List.length_cons] at hle ⊢
    omega
  have hdrop : e.revalued key val =
      ⟨key.1++keyTerm::(val.1++entryTerm::(v.1++entryTerm::tail).drop (val.1.length+1))⟩ := by
    have hsum : key.1.length+1+(val.1.length+1) = key.1.length+(1+(val.1.length+1)) := by omega
    rw [Entry.revalued,hb,hsum,List.drop_append,List.drop_eq_nil_of_le (by omega),
      Nat.add_sub_cancel_left,Nat.add_comm 1,List.drop_succ_cons,List.nil_append]
  have hput := putValue_entry a c e key val _ hlen hb
  rw [← hdrop,← hflat,← hm,ha,← hset] at hput
  obtain ⟨ptr,hptr,hput⟩ := Option.bind_eq_some_iff.mp hput
  obtain ⟨ptr',hptr',hput⟩ := Option.bind_eq_some_iff.mp hput
  simp only [EnvMap.overwrite,hptr,hptr',hput,Option.bind_eq_bind,Option.bind_some]

lemma removeVar_flat (hm : m.env = flat es) (hk : m.envMap key = some (start es i))
    (he : es[i]? = some e) (h : 2 ≤ e.body.length) :
    m.removeVar key = some { m with
      env := flat (es.set i e.blanked), envMap := Function.update m.envMap key none } := by
  simp only [EnvMap.removeVar,hk,hm,blank_flat he h,Option.bind_eq_bind,Option.bind_some]

lemma pushEntry_flat (es : List Entry) (key val : Str)
    (h : (flat es).length+entryLen key val ≤ isizeMax) :
    pushEntry (flat es) key val = some (flat (es++[.fresh key val])) := by
  unfold pushEntry
  rw [if_pos h,← Entry.fresh_size]
  simp [flat,Entry.bytes,Entry.fresh]

/-- A key that is not in the index gets an entry at the end of the buffer. -/
lemma append_new (hm : m.env = flat es) (hk : m.envMap key = none) {val : Str}
    (hfit : (flat es).length+entryLen key val ≤ isizeMax) :
    m.append key val = some { m with
      env := flat (es++[.fresh key val])
      envMap := Function.update m.envMap key (some (flat es).length) } := by
  simp only [EnvMap.append,hm,pushEntry_flat es key val hfit,hk,Option.bind_eq_bind,
    Option.bind_some]

/-- A key that has an entry leaves it behind, empty and on the free list. -/
lemma append_moved (hm : m.env = flat es) (hk : m.envMap key = some (start es i))
    (he : es[i]? = some e) (h : 2 ≤ e.body.length) {val : Str}
    (hfit : (flat es).length+entryLen key val ≤ isizeMax) :
    m.append key val = some ⟨flat (es.set i e.blanked++[.fresh key val]),
      Function.update m.envMap key (some (flat es).length),m.freelist++[start es i]⟩ := by
  obtain ⟨hi,-⟩ := List.getElem?_eq_some_iff.mp he
  have he' : (es++[Entry.fresh key val])[i]? = some e := by
    rw [List.getElem?_append_left hi,he]
  have hblank := blank_flat he' h
  rw [start_append (by omega),List.set_append_left _ _ hi] at hblank
  simp only [EnvMap.append,hm,pushEntry_flat es key val hfit,hk,hblank,Option.bind_eq_bind,
    Option.bind_some]

end Operations

end WinterLily.Env
