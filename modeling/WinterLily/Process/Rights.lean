import WinterLily.Base.Transition
import WinterLily.Process.Resize

/-! What a guest can make of the pages of its process by any sequence of the mapping calls of
`wl-usi-process/src/mem.rs`. The kernel answers each call as it likes. -/
namespace WinterLily.Mapping
open WinterLily.Transition WinterLily.Pages WinterLily.Handles WinterLily.Process WinterLily.Resize

/-- The page can be written and executed. -/
def Page.WritableText (p : Page) : Prop := p.prot &&& protWrite ≠ 0#32 ∧ p.prot &&& protExec ≠ 0#32

/-- The calls with their arguments and the kernel's answer. -/
inductive MapCall
  | createMapping (hint pageCount : Word) (mapAttrs mapKind : BitVec 32) (reply : Except Errno ℕ)
  | removeMapping (baseAddr pageCount : Word) (reply : Option Errno)
  | resizeMapping (baseAddr oldPageCount newAddr newPageCount : Word) (reply : Except Errno ℕ)
    (written : Bool)
  | changeMappingAttributes (baseAddr pageCount : Word) (mapAttrs : BitVec 32)
    (reply : Option Errno)

/-- The pages after a call, whether it returns an error or not. -/
def mapStep (K : Layout) (C : Consts) (s : Space Page) : MapCall → Option (Space Page)
  | .createMapping hint n attrs kind reply => some (createMapping K C hint n attrs kind reply s).2
  | .removeMapping base n reply => some (removeMapping K base n reply s).2
  | .resizeMapping base old newAddr new reply written =>
    some (resizePages K base old newAddr new reply written s).2
  | .changeMappingAttributes base n attrs reply =>
    some (changeMappingAttributes K C base n attrs reply s).2

/-- Each of the two attributes is a bit. -/
structure Consts.Flags (C : Consts) : Prop where
  write : ∃ i, C.mapAttrWrite = BitVec.twoPow 32 i
  exec : ∃ i, C.mapAttrExec = BitVec.twoPow 32 i

section Protection

variable {C : Consts} {attrs : BitVec 32}

lemma and_twoPow_eq {a : BitVec 32} {i : ℕ} (h : a &&& BitVec.twoPow 32 i ≠ 0#32) :
    a &&& BitVec.twoPow 32 i = BitVec.twoPow 32 i := by
  rw [BitVec.and_twoPow] at h ⊢
  split_ifs at h ⊢ with hbit
  · rfl
  · exact absurd rfl h

/-- A request with both bits is refused. -/
lemma Consts.Flags.writesText (hC : C.Flags) (hw : attrs &&& C.mapAttrWrite ≠ 0#32)
    (hx : attrs &&& C.mapAttrExec ≠ 0#32) : writesText C attrs = true := by
  obtain ⟨i,hi⟩ := hC.write
  obtain ⟨j,hj⟩ := hC.exec
  rw [hi] at hw
  rw [hj] at hx
  rw [Mapping.writesText,hi,hj,BitVec.and_or_distrib_left,and_twoPow_eq hw,and_twoPow_eq hx]
  exact decide_eq_true rfl

lemma linuxProt_write : linuxProt C attrs &&& protWrite ≠ 0#32 → attrs &&& C.mapAttrWrite ≠ 0#32 := by
  unfold linuxProt
  dsimp only
  intro h hw
  rw [if_neg (show ¬ attrs &&& C.mapAttrWrite ≠ 0#32 from not_not.mpr hw)] at h
  revert h
  split_ifs <;> decide

lemma linuxProt_exec : linuxProt C attrs &&& protExec ≠ 0#32 → attrs &&& C.mapAttrExec ≠ 0#32 := by
  unfold linuxProt
  dsimp only
  intro h hx
  rw [if_neg (show ¬ attrs &&& C.mapAttrExec ≠ 0#32 from not_not.mpr hx)] at h
  revert h
  split_ifs <;> decide

lemma linuxFlags_private : linuxFlags C attrs &&& mapShared = 0#32 := by
  unfold linuxFlags
  dsimp only
  split_ifs <;> decide

end Protection

/-- A page after a call. It is one there was, or one there was under a protection that was asked for,
or a private one of such a protection in free pages of the layout. -/
inductive Origin (K : Layout) (C : Consts) (s : Space Page) (q : ℕ) (p : Page) : Prop
  | moved (q₀ : ℕ) (h : s q₀ = some p) (hq : s q = some p ∨ K.lowest ≤ q ∧ q < K.taskPages)
  | changed (p₀ : Page) (attrs : BitVec 32) (h : s q = some p₀) (hattrs : writesText C attrs = false)
    (hp : p = { p₀ with prot := linuxProt C attrs })
  | created (attrs : BitVec 32) (hattrs : writesText C attrs = false) (hq : K.lowest ≤ q ∧ q < K.taskPages)
    (hp : p = ⟨linuxProt C attrs,false⟩)

section Step

variable {K : Layout} {C : Consts} {s t : Space Page} {q : ℕ} {p : Page}

lemma Origin.same (h : s q = some p) : Origin K C s q p := .moved q h (.inl h)

lemma fits_has {r : Range} (h : K.fits r = true) (hq : r.has q = true) :
    K.lowest ≤ q ∧ q < K.taskPages := by
  have hfits := Layout.fits_iff.mp h
  have hin := Range.has_iff.mp hq
  omega

lemma lift_snd {α : Type} (x : Except Errno α × Space Page) : (lift x).2 = x.2 := rfl

lemma createMapping_origin {hint n : Word} {attrs kind : BitVec 32} {reply : Except Errno ℕ}
    (h : (createMapping K C hint n attrs kind reply s).2 q = some p) : Origin K C s q p := by
  unfold createMapping at h
  split_ifs at h with hattrs htext
  · exact .same h
  · exact .same h
  rw [lift_snd] at h
  unfold mmap at h
  split_ifs at h with hlen
  · exact .same h
  cases reply with
  | error e => exact .same h
  | ok a =>
    dsimp only at h
    split_ifs at h with hok
    · dsimp only at h
      cases hq : Range.has ⟨a,pagesOf (n*4095#64)⟩ q with
      | true =>
        rw [Space.place,if_pos hq] at h
        refine .created attrs (by simpa using htext) (fits_has hok.1 hq) ?_
        rw [← Option.some.inj h,linuxFlags_private]
        rfl
      | false =>
        rw [place_of_not_has _ _ hq] at h
        exact .same h
    · exact .same h

lemma removeMapping_origin {base n : Word} {reply : Option Errno}
    (h : (removeMapping K base n reply s).2 q = some p) : Origin K C s q p := by
  unfold removeMapping at h
  rw [lift_snd,munmap] at h
  dsimp only at h
  split_ifs at h with hrange hzero
  · exact .same h
  · exact .same h
  cases reply with
  | some e => exact .same h
  | none =>
    dsimp only [Space.drop] at h
    split_ifs at h
    exact .same h

lemma remapped_origin {o r : Range} (h : Remapped K s o r t) (hp : t q = some p) :
    Origin K C s q p := by
  cases h with
  | shrunk hstart hlen hroom =>
    rw [Space.drop] at hp
    split_ifs at hp
    exact .same hp
  | grown page hpage hlen hfull hfits hplace =>
    cases hq : r.has q with
    | true =>
      rw [Space.place,if_pos hq] at hp
      have hin := fits_has hfits hq
      -- An old page, or one more of the kind of the first.
      split_ifs at hp
      · exact .moved _ hp (.inr hin)
      · rw [← Option.some.inj hp]
        exact .moved _ hpage (.inr hin)
    | false =>
      rw [place_of_not_has _ _ hq,Space.drop] at hp
      split_ifs at hp
      exact .same hp

lemma resizePages_origin {base n newAddr m : Word} {reply : Except Errno ℕ} {written : Bool}
    (h : (resizePages K base n newAddr m reply written s).2 q = some p) : Origin K C s q p := by
  unfold resizePages Mapping.resizeMapping lift at h
  obtain ⟨e,hno⟩ | ⟨o,r,t,hok,-,-,-,-,hpages⟩ := mremap_cases K s base (n*4096#64) (m*4096#64)
    (mremapFlags newAddr) reply
  · rw [hno] at h
    exact .same h
  · rw [hok] at h
    exact remapped_origin hpages h

lemma adjust_origin {r : Range} {attrs : BitVec 32} (hattrs : writesText C attrs = false)
    (h : s.adjust r (fun page => { page with prot := linuxProt C attrs }) q = some p) :
    Origin K C s q p := by
  rw [Space.adjust] at h
  split_ifs at h
  · obtain ⟨p₀,hp₀,rfl⟩ := Option.map_eq_some_iff.mp h
    exact .changed p₀ attrs hp₀ hattrs rfl
  · exact .same h

lemma changeMappingAttributes_origin {base n : Word} {attrs : BitVec 32} {reply : Option Errno}
    (h : (changeMappingAttributes K C base n attrs reply s).2 q = some p) : Origin K C s q p := by
  unfold changeMappingAttributes at h
  split_ifs at h with hattrs htext
  · exact .same h
  · exact .same h
  rw [Bool.not_eq_true] at htext
  rw [lift_snd] at h
  simp only [mprotect] at h
  split_ifs at h with hbase hlen hok
  · exact .same h
  · exact .same h
  · cases reply with
    | some e => exact .same h
    | none => exact adjust_origin htext h
  · exact adjust_origin htext h

/-- Where a page comes from, whatever the call. -/
lemma mapStep_origin {e : MapCall} (h : mapStep K C s e = some t) (hp : t q = some p) :
    Origin K C s q p := by
  cases e with
  | createMapping hint n attrs kind reply =>
    cases h
    exact createMapping_origin hp
  | removeMapping base n reply =>
    cases h
    exact removeMapping_origin hp
  | resizeMapping base old newAddr new reply written =>
    cases h
    exact resizePages_origin hp
  | changeMappingAttributes base n attrs reply =>
    cases h
    exact changeMappingAttributes_origin hp

lemma not_writableText (hC : C.Flags) {attrs : BitVec 32} (hattrs : writesText C attrs = false)
    {p : Page} (hp : p.prot = linuxProt C attrs) : ¬ p.WritableText := by
  rintro ⟨hw,hx⟩
  rw [hp] at hw hx
  rw [hC.writesText (linuxProt_write hw) (linuxProt_exec hx)] at hattrs
  cases hattrs

end Step

/-- A page for data becomes code and grows; the request for both is refused. -/
def codePage : List MapCall :=
  [.createMapping 0#64 1#64 3#32 0#32 (.ok 16),
    .changeMappingAttributes 0x10000#64 1#64 6#32 none,
    .changeMappingAttributes 0x10000#64 1#64 5#32 none,
    .resizeMapping 0x10000#64 1#64 0#64 2#64 (.ok 16) true]

end WinterLily.Mapping
