import WinterLily.Loader.Lookup
import WinterLily.Loader.SplitEnds

/-! `get_env` and `get_cenv` of `wl-ld-lilium/src/env.rs` side by side. The first takes every entry
for UTF-8; the second gives up at an entry that is not, and cannot slice one without a `=`. -/
namespace WinterLily.Lookup
open WinterLily.Effect WinterLily.SplitAscii
open WinterLily.SearchList (Text)

/-- The part of an entry before the first `=`. -/
def keyOf (e : Text) : Text := e.takeWhile (· ≠ equals)

/-- What follows the first `=`, if there is one. -/
def valueOf (e : Text) : Text := (e.dropWhile (· ≠ equals)).drop 1

/-- The value of a variable: that of the first entry with its name. -/
def envValue (environ : List Text) (var : Text) : Option Text :=
  (environ.find? fun e => keyOf e = var).map valueOf

/-- Both functions return the value of the variable. -/
def EnvAgree (environ : List Text) (var : Text) (p : Proc) : Prop :=
  getEnv environ var = envValue environ var ∧
    getCenv environ var p = .pure (envValue environ var) p

/-- If there is an entry with the name, it has a `=`, and it and those before it are UTF-8. -/
def Readable (environ : List Text) (var : Text) : Prop :=
  ∀ e ∈ environ.find? fun e => keyOf e = var, equals ∈ e ∧ Valid e ∧
    ∀ f ∈ environ.takeWhile fun e => keyOf e ≠ var, Valid f

instance (environ : List Text) (var : Text) : Decidable (Readable environ var) :=
  inferInstanceAs (Decidable (∀ e ∈ environ.find? fun e => keyOf e = var, _))

lemma splitOnce_equals (e : Text) : splitOnce equals e = (keyOf e,valueOf e) := by
  refine Prod.ext (splitOnce_fst equals e) ?_
  unfold valueOf
  rcases text_cases equals e with rfl | ⟨hne,hmem⟩ | ⟨key,value,rfl,hkey⟩
  · rfl
  · have hdrop : e.dropWhile (· ≠ equals) = [] :=
      List.dropWhile_eq_nil_iff.mpr fun b hb => decide_eq_true fun h => hmem (h ▸ hb)
    rw [splitOnce,next_last hmem hne,hdrop]
    rfl
  · have hdrop : (key++equals::value).dropWhile (· ≠ equals) = equals::value := by
      have hall : ∀ b ∈ key, decide (b ≠ equals) = true :=
        fun b hb => decide_eq_true fun h => hkey (h ▸ hb)
      rw [List.dropWhile_append_of_pos hall]
      exact List.dropWhile_cons_of_neg (by simp)
    rw [splitOnce,next_append hkey,hdrop]
    rfl

lemma drop_keyOf (e : Text) : e.drop ((keyOf e).length+1) = valueOf e := by
  have hsplit : keyOf e++e.dropWhile (· ≠ equals) = e := List.takeWhile_append_dropWhile
  calc e.drop ((keyOf e).length+1)
      = ((keyOf e++e.dropWhile (· ≠ equals)).drop (keyOf e).length).drop 1 := by
        rw [hsplit,List.drop_drop]
    _ = valueOf e := by rw [List.drop_left,valueOf]

/-- `get_env` is right about every environment. -/
lemma getEnv_eq (environ : List Text) (var : Text) : getEnv environ var = envValue environ var := by
  unfold getEnv envValue
  induction environ with
  | nil => rfl
  | cons e es ih =>
    rw [List.findSome?_cons,List.find?_cons,splitOnce_equals]
    by_cases hkey : keyOf e = var
    · simp [hkey]
    · simpa [hkey] using ih

/-- A step of `get_cenv`. -/
lemma getCenv_cons (e : Text) (es : List Text) (var : Text) (p : Proc) :
    getCenv (e::es) var p =
      if Valid e then
        if keyOf e = var then if equals ∈ e then .pure (some (valueOf e)) p else .panic p
        else getCenv es var p
      else .pure none p := by
  have hmem := equals_mem_iff e
  rw [splitOnce_equals] at hmem
  have hvalid : Utf8.isUtf8 (e.map UInt8.toBitVec) = false ↔ ¬ Valid e := by simp [Valid]
  rw [getCenv,splitOnce_equals]
  simp only [hvalid,hmem,ite_not,drop_keyOf]

lemma getCenv_eq_iff (environ : List Text) (var : Text) (p : Proc) :
    getCenv environ var p = .pure (envValue environ var) p ↔ Readable environ var := by
  induction environ with
  | nil => exact iff_of_true rfl (by simp [Readable])
  | cons e es ih =>
    rw [getCenv_cons]
    by_cases hkey : keyOf e = var
    · have hvalue : envValue (e::es) var = some (valueOf e) := by simp [envValue,hkey]
      have hread : Readable (e::es) var ↔ equals ∈ e ∧ Valid e := by simp [Readable,hkey]
      rw [hvalue,hread,if_pos hkey]
      by_cases hvalid : Valid e
      · rw [if_pos hvalid]
        by_cases heq : equals ∈ e
        · rw [if_pos heq]
          exact iff_of_true rfl ⟨heq,hvalid⟩
        · rw [if_neg heq]
          exact iff_of_false (Outcome.panic_ne_pure _ _ _) fun h => heq h.1
      · rw [if_neg hvalid,Outcome.pure_inj]
        exact iff_of_false (by simp) fun h => hvalid h.2
    · have hvalue : envValue (e::es) var = envValue es var := by simp [envValue,hkey]
      rw [hvalue,if_neg hkey]
      by_cases hvalid : Valid e
      · have hread : Readable (e::es) var ↔ Readable es var := by simp [Readable,hkey,hvalid]
        rw [if_pos hvalid,hread]
        exact ih
      · -- the search ends here, which is right if there is nothing to be found
        have hread : Readable (e::es) var ↔ (es.find? fun e => keyOf e = var) = none := by
          rw [Option.eq_none_iff_forall_not_mem]
          simp [Readable,hkey,hvalid]
        rw [if_neg hvalid,Outcome.pure_inj,hread,envValue,eq_comm,Option.map_eq_none_iff]

/-- `get_env` and `get_cenv` agree on the value of a variable, without a panic, unless the entry has
no `=` or there is one up to it that is not UTF-8. -/
theorem env_agree_iff (environ : List Text) (var : Text) (p : Proc) :
    EnvAgree environ var p ↔ Readable environ var :=
  ⟨fun h => (getCenv_eq_iff environ var p).mp h.2,
    fun h => ⟨getEnv_eq environ var,(getCenv_eq_iff environ var p).mpr h⟩⟩

/-- With `\xFF` before `A=b`, `get_env` finds the value of `A` and `get_cenv` does not; with `A`
alone, `get_env` finds it empty and `get_cenv` panics. -/
theorem env_disagree :
    (getEnv [[0xFF],[0x41,equals,0x62]] [0x41] = some [0x62] ∧
        ∀ p, getCenv [[0xFF],[0x41,equals,0x62]] [0x41] p = .pure none p) ∧
      getEnv [[0x41]] [0x41] = some [] ∧ ∀ p, getCenv [[0x41]] [0x41] p = .panic p :=
  ⟨⟨rfl,fun _ => rfl⟩,rfl,fun _ => rfl⟩

end WinterLily.Lookup
