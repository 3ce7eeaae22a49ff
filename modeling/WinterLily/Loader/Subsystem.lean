import WinterLily.Loader.OpenModule

/-! `load_subsystem` of `wl-ld-lilium/src/ldso.rs` up to the handle that it loads, and the buffers of
a fixed size on the way there. The calls do not panic and pass on the texts as they are exactly if
every text that is put in a buffer fits it and the locks can be used. -/
namespace WinterLily.Lookup
open WinterLily.Effect WinterLily.File WinterLily.Reader WinterLily.SplitAscii
open WinterLily.SearchList (Text slash visited)

section LoadSubsystem

/-- `LOADER.find`; the error names the subsystem. -/
def findLibrary (k : Kernel) (fuel : ℕ) (report soname : Text) (p : Proc) : Act (Except Text Fd) :=
  (openModule k fuel .host soname p).andThen fun r p =>
    match r with
    | .ok fd => .pure (.ok fd) p
    | .error _ => .pure (.error report) p

def defaultName (name : Text) : Text := ascii "libwl-usi-"++name++ascii ".so"

/-- Without an override, from the buffer of the default name on. -/
def loadDefault (k : Kernel) (fuel : ℕ) (name : Text) (p : Proc) : Option Text → Act (Except Text Fd)
  | none => .panic (p.use (.name 96 (defaultName name) none))
  | some buf =>
    match readBack buf with
    | none => .panic (p.use (.name 96 (defaultName name) none))
    | some soname => findLibrary k fuel soname soname
        (p.use (.name 96 (defaultName name) (some soname)))

/-- With an override: a path, or the name of a library. -/
def loadOverride (k : Kernel) (fuel : ℕ) (soname envName var : Text) (p : Proc) :
    Act (Except Text Fd) :=
  if slash ∈ var then
    (openSysrootRdonly k .override .cwd var p).andThen fun r p =>
      match r with
      | .ok file => .pure (.ok file.1) p
      | .error _ => .pure (.error soname) p
  else
    (getCenv k.environ envName p).andThen fun found p =>
      match found with
      | none => .panic p
      | some overrideSoname => findLibrary k fuel soname overrideSoname p

def varName (name : Text) : Text := ascii "WL_SUBSYS_"++name

/-- From the buffer of the name of the variable on, which is used again for the default name. -/
def loadNamed (k : Kernel) (fuel : ℕ) (name soname : Text) (p : Proc) :
    Option Text → Act (Except Text Fd)
  | none => .panic (p.use (.slice 96 (varName name) none))
  | some buf =>
    let envName := buf.take (varName name).length
    let p := p.use (.slice 96 (varName name) (some envName))
    match getEnv k.environ envName with
    | some var => loadOverride k fuel soname envName var p
    | none => loadDefault k fuel name p (copyAll buf [ascii "libwl-usi-",name,ascii ".so"])

def subsystemName (name : Text) : Text := ascii "libusi-"++name++ascii ".so"

/-- From the buffer of the subsystem's name on; it is read without a check for its end. -/
def loadBuffered (k : Kernel) (fuel : ℕ) (name : Text) (p : Proc) : Option Text → Act (Except Text Fd)
  | none => .panic (p.use (.name 96 (subsystemName name) none))
  | some buf => loadNamed k fuel name (cstr buf)
      (p.use (.name 96 (subsystemName name) (readBack buf)))
      (copyAll (zeroed 96) [ascii "WL_SUBSYS_",name])

/-- `load_subsystem`, up to the descriptor that is loaded, or the name that is reported. -/
def loadSubsystem (k : Kernel) (fuel : ℕ) (name : Text) (p : Proc) : Act (Except Text Fd) :=
  loadBuffered k fuel name p (copyAll (zeroed 96) [ascii "libusi-",name,ascii ".so"])

end LoadSubsystem

section Accounts

/-- The text comes out of its buffer as it is. -/
def Use.Exact : Use → Prop
  | .name _ text passed => passed = some text
  | .slice _ text passed => passed = some text

/-- There is room for the text in its buffer, and nothing in it ends a C string. -/
def Use.Fits : Use → Prop
  | .name size text _ => text.length < size ∧ nul ∉ text
  | .slice size text _ => text.length ≤ size

/-- The path is looked up in the sysroot. -/
def Use.takesSysroot : Use → Bool
  | .name _ text _ => absolute text
  | .slice _ _ _ => false

/-- The texts put in buffers; the lock of the sysroot allows so many absolute ones. -/
def buffers (k : Kernel) : Ledger Proc Use where
  log := Proc.uses
  good := Use.Exact
  fits := Use.Fits
  allows p us := Usable k p.sysroot (us.countP Use.takesSysroot)
  allows_nil p := usable_zero k p.sysroot

/-- The texts pass their buffers, and nothing panics, exactly if they fit and the sysroot can be
used. -/
def Tells {α : Type*} (k : Kernel) (p : Proc) (o : Act α) : Prop := Outcome.Accounts (buffers k) p o

variable {k : Kernel} {p q : Proc} {α : Type*} {st : Text}

lemma exact_path_iff (hlen : st.length < 256) : (Use.path st).Exact ↔ (Use.path st).Fits := by
  change some (cstr st) = some st ↔ st.length < 256 ∧ nul ∉ st
  rw [Option.some_inj,cstr_eq_self_iff,and_iff_right hlen]

lemma countP_path (st : Text) (us : List Use) : (Use.path st::us).countP Use.takesSysroot =
    us.countP Use.takesSysroot+if absolute st then 1 else 0 :=
  List.countP_cons

lemma tells_path {r : Stop α} (hlen : st.length < 256) (huses : q.uses = p.uses++[.path st])
    (hr : r ≠ .panic) (husable : ∀ n, Usable k p.sysroot (n+if absolute st then 1 else 0) ↔
      Usable k q.sysroot n) : Tells k p ⟨r,q⟩ := by
  refine Outcome.accounts_of_value (L := buffers k) huses hr ?_ fun vs => ?_
  · rw [List.forall_mem_singleton]
    exact exact_path_iff hlen
  · change Usable k p.sysroot ((Use.path st::vs).countP _) ↔ _
    rw [countP_path]
    exact husable _

lemma openSysrootRdonly_tells (k : Kernel) (why : Purpose) (dir : At) (st : Text) (p : Proc) :
    Tells k p (openSysrootRdonly k why dir st p) := by
  have hout := openSysrootRdonly_outcome k why dir st p
  generalize openSysrootRdonly k why dir st p = o at hout ⊢
  cases hout with
  | long h =>
    refine Outcome.accounts_panic [.name 256 st none] rfl fun hfits => ?_
    exact h (hfits.1 _ (List.mem_singleton_self _)).1
  | stopped hlen hhead hslot =>
    refine Outcome.accounts_panic [.path st] rfl fun hfits => not_usable hslot 0 ?_
    have hone := hfits.2
    change Usable k p.sysroot ([Use.path st].countP _) at hone
    rw [countP_path,absolute,decide_eq_true hhead] at hone
    exact hone
  | unopenable hlen hhead hslot hfault =>
    refine tells_path hlen rfl (Stop.value_ne_panic _) fun n => ?_
    rw [absolute,decide_eq_true hhead,hslot.1]
    exact usable_fresh_iff hslot.2 hfault n
  | refused hlen hq | found hlen hq =>
    exact tells_path hlen hq.uses (Stop.value_ne_panic _) hq.usable

/-- A reader of configuration files that tells what it puts in buffers. -/
def TellsAlways (k : Kernel) (f : ReadFile) : Prop :=
  ∀ top fd c w p, Tells k p (f top fd c w p)

variable {f : ReadFile}

lemma forEachEntry_tells (hf : TellsAlways k f) (dirfd : Fd) (dir : Text) (names : List Text)
    (p : Proc) : Tells k p (forEachEntry k f dirfd dir names p) := by
  induction names generalizing p with
  | nil => exact Outcome.accounts_pure rfl rfl
  | cons name names ih =>
    rw [forEachEntry]
    exact ((openSysrootRdonly_tells k _ _ _ p).andTry fun file q => hf _ _ _ _ q).andTry
      fun _ q => ih q

lemma listEntries_tells (hf : TellsAlways k f) (dirfd : Fd) (dir : Text) (suits : Text → Bool)
    (rounds off : ℕ) (p : Proc) : Tells k p (listEntries k f dirfd dir suits rounds off p) := by
  induction rounds generalizing off p with
  | zero => exact Outcome.accounts_running rfl rfl
  | succ rounds ih =>
    rw [listEntries]
    split
    · exact Outcome.accounts_pure rfl rfl
    · split_ifs
      · exact Outcome.accounts_pure rfl rfl
      · refine Outcome.Accounts.andTry ?_ fun _ q => ih _ q
        exact (forEachEntry_tells hf dirfd dir _ _).congr rfl rfl

lemma expandGlob_tells (hf : TellsAlways k f) (rounds : ℕ) (path : Text) (p : Proc) :
    Tells k p (expandGlob k rounds f path p) := by
  rw [expandGlob]
  refine (openSysrootRdonly_tells k _ _ _ p).andTry fun file q => ?_
  exact (listEntries_tells hf _ _ _ _ _ q).andThen fun _ r => Outcome.accounts_pure rfl rfl

lemma includePath_tells (hf : TellsAlways k f) (rounds : ℕ) (path : Text) (p : Proc) :
    Tells k p (includePath k rounds f path p) := by
  rw [includePath]
  refine (openSysrootRdonly_tells k _ _ _ p).andThen fun r q => ?_
  cases r with
  | ok file => exact hf _ _ _ _ q
  | error e =>
    dsimp only
    split_ifs
    · exact expandGlob_tells hf rounds path q
    · exact Outcome.accounts_pure rfl rfl

lemma closeConfig_tells (k : Kernel) (top : Bool) (fd : Fd) (p : Proc) :
    Tells k p (closeConfig k top fd p) := by
  rw [closeConfig]
  split <;> exact Outcome.accounts_pure rfl rfl

lemma readConfigFile_tells (k : Kernel) (fuel : ℕ) : TellsAlways k (readConfigFile k fuel) := by
  induction fuel with
  | zero => exact fun _ _ _ _ p => Outcome.accounts_running rfl rfl
  | succ fuel ih =>
    intro top fd c w p
    rw [readConfigFile]
    split
    · exact Outcome.accounts_running rfl rfl
    · exact Outcome.accounts_pure rfl rfl
    · exact (closeConfig_tells k top fd _).congr rfl rfl
    · dsimp only
      split_ifs
      · exact (ih top fd c _ _).congr rfl rfl
      · split
        · refine Outcome.Accounts.andTry ?_ fun _ q => ih top fd c _ q
          exact (includePath_tells ih fuel _ _).congr rfl rfl
        · exact (ih top fd c _ _).congr rfl rfl

lemma initCacheSlow_tells (k : Kernel) (fuel : ℕ) (envName configPath : Text) (p : Proc) :
    Tells k p (initCacheSlow k fuel envName configPath p) := by
  rw [initCacheSlow]
  refine Outcome.Accounts.andThen ?_ fun r q => ?_
  · exact (openSysrootRdonly_tells k _ _ _ _).congr rfl rfl
  cases r with
  | ok file =>
    exact (readConfigFile_tells k fuel _ _ _ _ q).andTry fun _ q => Outcome.accounts_pure rfl rfl
  | error e => exact Outcome.accounts_pure rfl rfl

lemma tells_use_panic {u : Use} (h : ¬ u.Fits) : Tells k p (.panic (p.use u) : Act α) :=
  Outcome.accounts_panic [u] rfl fun hfits => h (hfits.1 u (List.mem_singleton_self u))

/-- A slice that is passed as it should be, and what comes after it. -/
lemma Tells.slice {size : ℕ} {passed : Option Text} {o : Act α}
    (hu : (Use.slice size st passed).Exact ↔ (Use.slice size st passed).Fits)
    (ho : Tells k (p.use (.slice size st passed)) o) : Tells k p o := by
  refine ho.after [.slice size st passed] rfl ?_ fun vs => Iff.rfl
  rw [List.forall_mem_singleton]
  exact hu

lemma searchList_tells (k : Kernel) (fuel : ℕ) {search : SearchType}
    (hlist : p.lists search ≠ .poisoned) : Tells k p (searchList k fuel search p) := by
  rw [searchList,getOrTryInit]
  cases hslot : p.lists search with
  | ready v => exact Outcome.accounts_pure rfl rfl
  | poisoned => exact absurd hslot hlist
  | fresh =>
    refine (initCacheSlow_tells k fuel _ _ p).andThen fun r q => ?_
    cases r with
    | ok v | error e => exact Outcome.accounts_pure rfl rfl

lemma rewind_tells (k : Kernel) (fd : Fd) (c : Text) (w : World) (p : Proc) :
    Tells k p (rewind k fd c w p) := by
  rw [rewind]
  split <;> exact Outcome.accounts_pure rfl rfl

lemma probe_tells (k : Kernel) (fd : Fd) (c : Text) (p : Proc) : Tells k p (probe k fd c p) := by
  rw [probe]
  split
  · exact Outcome.accounts_running rfl rfl
  · exact Outcome.accounts_pure rfl rfl
  · split_ifs
    · exact Outcome.accounts_pure rfl rfl
    · split
      · exact Outcome.accounts_running rfl rfl
      · exact Outcome.accounts_pure rfl rfl
      · split_ifs
        · exact Outcome.accounts_pure rfl rfl
        · exact (rewind_tells k fd c _ _).congr rfl rfl

lemma judge_tells {next : Proc → Act (Except Errno Fd)} (hnext : ∀ p, Tells k p (next p))
    (r : Except Errno (Fd × Text)) (p : Proc) : Tells k p (judge k next r p) := by
  cases r with
  | ok file =>
    rw [judge]
    refine (probe_tells k _ _ p).andThen fun verdict q => ?_
    cases verdict with
    | rejected => exact hnext q
    | failed e | accepted => exact Outcome.accounts_pure rfl rfl
  | error e =>
    rw [judge]
    split_ifs
    · exact hnext p
    · exact Outcome.accounts_pure rfl rfl

lemma tryCandidates_tells (k : Kernel) (soname : Text) (dirs : List Text) (p : Proc) :
    Tells k p (tryCandidates k soname dirs p) := by
  induction dirs generalizing p with
  | nil => exact Outcome.accounts_pure rfl rfl
  | cons dir dirs ih =>
    rw [tryCandidates,candidatePath_eq]
    split_ifs with hlen
    · have hslice : (Use.slice 4095 (dir++slash::soname) (some (dir++slash::soname))).Exact ↔
          (dir++slash::soname).length ≤ 4095 := iff_of_true rfl (Nat.le_of_lt_succ hlen)
      rw [tryCandidate]
      refine Tells.slice hslice ?_
      exact (openSysrootRdonly_tells k _ _ _ _).andThen fun r q => judge_tells ih r q
    · rw [tryCandidate]
      exact tells_use_panic fun hfit => hlen (Nat.lt_succ_of_le hfit)

lemma openModule_tells (k : Kernel) (fuel : ℕ) {search : SearchType} (soname : Text)
    (hlist : p.lists search ≠ .poisoned) : Tells k p (openModule k fuel search soname p) := by
  rw [openModule]
  exact (searchList_tells k fuel hlist).andTry fun list q => tryCandidates_tells k soname _ q

end Accounts

section Safety

/-- The texts put in buffers from one state to another. -/
def Proc.since (p q : Proc) : List Use := q.uses.drop p.uses.length

/-- The call does not panic, and every text comes out of its buffer as it went in. -/
def Safe {α : Type*} (p : Proc) (o : Act α) : Prop :=
  o.result ≠ .panic ∧ ∀ u ∈ p.since o.state, u.Exact

/-- A path that its buffer has room for, with the sysroot to be used if it is absolute. -/
def PathFits (k : Kernel) (slot : Slot Fd) (st : Text) : Prop :=
  st.length < 256 ∧ nul ∉ st ∧ (absolute st = true → Usable k slot 1)

/-- Every text that `open_module` puts in a buffer fits it, the search list can be used, and the
sysroot for so many absolute paths. -/
def LookupFits (k : Kernel) (fuel : ℕ) (search : SearchType) (soname : Text) (p : Proc) : Prop :=
  p.lists search ≠ .poisoned ∧
    let us := p.since (openModule k fuel search soname p).state
    (∀ u ∈ us, u.Fits) ∧ Usable k p.sysroot (us.countP Use.takesSysroot)

/-- The paths fit their buffers, and the lock of the sysroot holds out. -/
def PathsFit (k : Kernel) (slot : Slot Fd) (paths : List Text) : Prop :=
  (∀ path ∈ paths, path.length < 256) ∧ Passable k slot paths

/-- The state in which the override of a subsystem is looked for. -/
def Proc.named (p : Proc) (name : Text) : Proc :=
  (p.use (.name 96 (subsystemName name) (some (subsystemName name)))).use
    (.slice 96 (varName name) (some (varName name)))

/-- The override is a path that fits, or its value is found and names a library that fits. -/
def OverrideFits (k : Kernel) (fuel : ℕ) (name var : Text) (p : Proc) : Prop :=
  if slash ∈ var then PathFits k p.sysroot var
  else ∃ e, cenvEntry k.environ (varName name) = some e ∧ equals ∈ e ∧
    LookupFits k fuel .host (e.drop ((varName name).length+1)) p

def DefaultFits (k : Kernel) (fuel : ℕ) (name : Text) (p : Proc) : Prop :=
  (defaultName name).length < 96 ∧ nul ∉ defaultName name ∧
    LookupFits k fuel .host (defaultName name)
      (p.use (.name 96 (defaultName name) (some (defaultName name))))

def LibraryFits (k : Kernel) (fuel : ℕ) (name : Text) (p : Proc) : Prop :=
  match getEnv k.environ (varName name) with
  | some var => OverrideFits k fuel name var p
  | none => DefaultFits k fuel name p

/-- What is asked of the name of a subsystem. -/
def NameFits (k : Kernel) (fuel : ℕ) (name : Text) (p : Proc) : Prop :=
  ((subsystemName name).length < 96 ∧ nul ∉ subsystemName name) ∧ (varName name).length ≤ 96 ∧
    LibraryFits k fuel name (p.named name)

variable {k : Kernel} {fuel : ℕ} {p q : Proc} {α β : Type*} {o : Act α} {c d : Prop} {u : Use}
  {name : Text}

/-- The call adds to the log, and is safe under this condition. -/
def Decides (p : Proc) (o : Act α) (c : Prop) : Prop :=
  (∃ us, o.state.uses = p.uses++us) ∧ (Safe p o ↔ c)

lemma since_eq {us : List Use} (h : q.uses = p.uses++us) : p.since q = us := by
  rw [Proc.since,h,List.drop_left]

lemma Decides.congr (h : Decides p o c) (hcd : c ↔ d) : Decides p o d := ⟨h.1,h.2.trans hcd⟩

lemma decides_panic (hc : ¬ c) : Decides p (.panic p : Act α) c :=
  ⟨⟨[],(List.append_nil _).symm⟩,iff_of_false (fun h => h.1 rfl) hc⟩

/-- A text in a buffer, and what comes after it. -/
lemma Decides.use (h : Decides (p.use u) o c) : Decides p o (u.Exact ∧ c) := by
  obtain ⟨⟨us,hus⟩,hiff⟩ := h
  have hus' : o.state.uses = p.uses++u::us := by rw [hus,Proc.use,List.append_assoc]; rfl
  refine ⟨⟨u::us,hus'⟩,?_⟩
  rw [← hiff,Safe,Safe,since_eq hus,since_eq hus',List.forall_mem_cons]
  tauto

lemma decides_use_panic (hc : ¬ c) : Decides p (.panic (p.use u) : Act α) c :=
  (decides_panic hc).use.congr (and_iff_right_of_imp fun h => absurd h hc)

/-- A result that is only renamed. -/
lemma Decides.andThen {f : α → Proc → Act β} (h : Decides p o c)
    (hf : ∀ a q, ∃ b, f a q = .pure b q) : Decides p (o.andThen f) c := by
  have hsame : (o.andThen f).state = o.state ∧
      ((o.andThen f).result = .panic ↔ o.result = .panic) := by
    obtain ⟨result,q⟩ := o
    cases result with
    | value a =>
      obtain ⟨b,hb⟩ := hf a q
      change (f a q).state = q ∧ ((f a q).result = .panic ↔ _)
      rw [hb]
      exact ⟨rfl,iff_of_false (Stop.value_ne_panic b) (Stop.value_ne_panic a)⟩
    | panic => exact ⟨rfl,iff_of_true rfl rfl⟩
    | running => exact ⟨rfl,iff_of_false Stop.running_ne_panic Stop.running_ne_panic⟩
  rw [Decides,Safe,hsame.1,Ne,hsame.2]
  exact h

lemma Tells.decides (h : Tells k p o) : Decides p o ((∀ u ∈ p.since o.state, u.Fits) ∧
    Usable k p.sysroot ((p.since o.state).countP Use.takesSysroot)) := by
  have hiff := h.safe_iff
  obtain ⟨us,hus,-⟩ := h
  exact ⟨⟨us,hus⟩,hiff⟩

lemma openModule_decides (k : Kernel) (fuel : ℕ) (search : SearchType) (soname : Text) (p : Proc) :
    Decides p (openModule k fuel search soname p) (LookupFits k fuel search soname p) := by
  by_cases hlist : p.lists search = .poisoned
  · have hopen : openModule k fuel search soname p = .panic p := by
      rw [openModule,searchList,getOrTryInit,hlist]
      rfl
    rw [hopen]
    exact decides_panic fun h => h.1 hlist
  · exact (openModule_tells k fuel soname hlist).decides.congr (and_iff_right hlist).symm

/-- What is asked of the texts that are put in buffers. -/
def UsesFit (k : Kernel) (slot : Slot Fd) (us : List Use) : Prop :=
  (∀ u ∈ us, u.Fits) ∧ Usable k slot (us.countP Use.takesSysroot)

/-- The texts of a round fit if its path does, and then the rest of them is to fit. -/
lemma usesFit_round {st : Text} {r : Except Errno (Fd × Text)} (h : Looked k st p r q)
    (hlen : st.length < 256) (rest : List Use) :
    UsesFit k p.sysroot (roundUses st++rest) ↔ nul ∉ st ∧ UsesFit k q.sysroot rest := by
  have hslice : (Use.slice 4095 st (some st)).Fits := by
    change st.length ≤ 4095
    omega
  have hcount : (roundUses st++rest).countP Use.takesSysroot =
      rest.countP Use.takesSysroot+if absolute st then 1 else 0 := by
    rw [roundUses,List.cons_append,List.cons_append,List.nil_append,
      List.countP_cons_of_neg (by exact Bool.false_ne_true),countP_path]
  have hpath : (Use.path st).Fits ↔ nul ∉ st := and_iff_right hlen
  rw [UsesFit,UsesFit,hcount,h.usable,List.forall_mem_append,roundUses,List.forall_mem_cons,
    and_iff_right hslice,List.forall_mem_singleton,hpath,and_assoc]

lemma pathsFit_round {st : Text} (fs : Text → Except Errno Text) (paths : List Text)
    {r : Except Errno (Fd × Text)} (h : Looked k st p r q) (hlen : st.length < 256) :
    PathsFit k p.sysroot (choose fs (st::paths)).1 ↔
      nul ∉ st ∧ PathsFit k q.sysroot (choose fs (st::paths)).1.tail := by
  rw [choose_head,PathsFit,PathsFit,Passable,Passable,List.forall_mem_cons,List.forall_mem_cons,
    List.countP_cons,h.usable,and_iff_right hlen]
  tauto

lemma judge_fits_iff (hk : k.Steady) {st : Text} {fs : Text → Except Errno Text}
    {paths : List Text} {r : Except Errno (Fd × Text)} (h : Looked k st p r q)
    (hfs : SlotAgrees k p.sysroot fs) {next : Proc → Act (Except Errno Fd)}
    (hnext : ∀ p : Proc, SlotAgrees k p.sysroot fs → ∃ us, (next p).state.uses = p.uses++us ∧
      (UsesFit k p.sysroot us ↔ PathsFit k p.sysroot (choose fs paths).1)) :
    ∃ rest, (judge k next r q).state.uses = q.uses++rest ∧
      (nul ∉ st → (UsesFit k q.sysroot rest ↔
        PathsFit k q.sysroot (choose fs (st::paths)).1.tail)) := by
  obtain ⟨q',hsame,⟨hjudge,hchoose⟩ | ⟨x,hjudge,hchoose⟩⟩ := judge_steady hk h hfs next paths
  · obtain ⟨rest,huses,hiff⟩ := hnext q' (hsame.sysroot ▸ h.agrees fs hfs)
    rw [hjudge]
    refine ⟨rest,by rw [huses,hsame.uses],fun hnul => ?_⟩
    rw [hchoose hnul,List.tail_cons,← hsame.sysroot]
    exact hiff
  · rw [hjudge]
    refine ⟨[],hsame.uses.trans (List.append_nil _).symm,fun hnul => ?_⟩
    obtain ⟨y,hy,-⟩ := hchoose hnul
    have hzero := usable_zero k q.sysroot
    rw [hy,List.tail_cons]
    exact iff_of_true ⟨by simp,hzero⟩ ⟨by simp,by simp,hzero⟩

/-- On files that stay as they are, the texts fit exactly if the paths up to the one that decides
do. -/
lemma tryCandidates_fits_iff (hk : k.Steady) (soname : Text) (fs : Text → Except Errno Text)
    (dirs : List Text) (p : Proc) (hfs : SlotAgrees k p.sysroot fs) :
    ∃ us, (tryCandidates k soname dirs p).state.uses = p.uses++us ∧
      (UsesFit k p.sysroot us ↔
        PathsFit k p.sysroot (choose fs (dirs.map (·++slash::soname))).1) := by
  induction dirs generalizing p with
  | nil =>
    have hzero := usable_zero k p.sysroot
    exact ⟨[],(List.append_nil _).symm,
      iff_of_true ⟨by simp,hzero⟩ ⟨by simp [choose],by simp [choose],hzero⟩⟩
  | cons dir dirs ih =>
    rw [tryCandidates,candidatePath_eq,List.map_cons]
    set st := dir++slash::soname
    have hlong : ¬ st.length < 256 →
        ¬ PathsFit k p.sysroot (choose fs (st::dirs.map (·++slash::soname))).1 := by
      rw [choose_head]
      exact fun hlen h => hlen (h.1 st (List.mem_cons_self ..))
    by_cases hbuf : st.length < 4096
    · rw [if_pos hbuf,tryCandidate]
      set p₀ := p.use (.slice 4095 st (some st))
      by_cases hlen : st.length < 256
      · rcases openSysrootRdonly_looked hk .candidate hlen p₀ with ⟨hopen,habs,hslot⟩ |
          ⟨r,q,hopen,hlooked⟩
        · rw [hopen,Outcome.panic_andThen]
          refine ⟨roundUses st,by simp [Outcome.panic,p₀,Proc.use,roundUses],iff_of_false ?_ ?_⟩
          · rintro ⟨-,husable⟩
            have hone : (roundUses st).countP Use.takesSysroot = 1 := by
              simp [roundUses,Use.takesSysroot,Use.path,habs]
            rw [hone] at husable
            exact hslot 0 husable
          · rintro ⟨-,-,husable⟩
            rw [choose_head,List.countP_cons_of_pos habs] at husable
            exact hslot _ husable
        · rw [hopen,Outcome.pure_andThen]
          obtain ⟨rest,huses,hiff⟩ := judge_fits_iff hk hlooked hfs ih
          refine ⟨roundUses st++rest,?_,?_⟩
          · rw [huses,hlooked.uses]
            simp [p₀,Proc.use,roundUses]
          · have huse := usesFit_round hlooked hlen rest
            have hpath := pathsFit_round fs (dirs.map (·++slash::soname)) hlooked hlen
            exact huse.trans ((and_congr_right hiff).trans hpath.symm)
      · rw [openSysrootRdonly,pathBuffer_eq,if_neg hlen]
        refine ⟨[.slice 4095 st (some st),.name 256 st none],?_,iff_of_false ?_ (hlong hlen)⟩
        · simp [openBuffered,Outcome.panic,Outcome.andThen,p₀,Proc.use]
        · exact fun h => hlen (h.1 (.name 256 st none) (by simp)).1
    · rw [if_neg hbuf,tryCandidate]
      refine ⟨[.slice 4095 st none],rfl,iff_of_false ?_ (hlong (by omega))⟩
      intro h
      have hfits : st.length ≤ 4095 := h.1 _ (List.mem_singleton_self _)
      omega

/-- What `open_module` asks of a search list that is there already. -/
lemma lookupFits_iff (hk : k.Steady) (fuel : ℕ) {search : SearchType} {list : Text} (soname : Text)
    (hlist : p.lists search = .ready list) : LookupFits k fuel search soname p ↔
      PathsFit k p.sysroot (choose (k.lookup p.sysroot) (candidates list soname)).1 := by
  obtain ⟨us,huses,hiff⟩ := tryCandidates_fits_iff hk soname (k.lookup p.sysroot) (visited list) p
    fun path _ => rfl
  rw [LookupFits,openModule_of_ready hlist,since_eq huses,hlist]
  exact (and_iff_right (by simp)).trans hiff

lemma openSysrootRdonly_since (k : Kernel) (why : Purpose) (dir : At) (st : Text) (p : Proc) :
    ∃ passed, p.since (openSysrootRdonly k why dir st p).state = [.name 256 st passed] := by
  have hout := openSysrootRdonly_outcome k why dir st p
  generalize openSysrootRdonly k why dir st p = o at hout ⊢
  cases hout with
  | long => exact ⟨none,since_eq rfl⟩
  | stopped | unopenable => exact ⟨some (cstr st),since_eq rfl⟩
  | refused _ hq | found _ hq => exact ⟨some (cstr st),since_eq hq.uses⟩

lemma openSysrootRdonly_decides (k : Kernel) (why : Purpose) (dir : At) (st : Text) (p : Proc) :
    Decides p (openSysrootRdonly k why dir st p) (PathFits k p.sysroot st) := by
  refine (openSysrootRdonly_tells k why dir st p).decides.congr ?_
  obtain ⟨passed,hsince⟩ := openSysrootRdonly_since k why dir st p
  have hcount : [Use.name 256 st passed].countP Use.takesSysroot = if absolute st then 1 else 0 :=
    (List.countP_cons).trans (Nat.zero_add _)
  rw [hsince,List.forall_mem_singleton,hcount,PathFits,← and_assoc]
  refine and_congr Iff.rfl ?_
  cases absolute st with
  | false => exact iff_of_true (usable_zero k p.sysroot) fun h => absurd h Bool.false_ne_true
  | true => exact ⟨fun h _ => h,fun h => h rfl⟩

lemma findLibrary_decides (k : Kernel) (fuel : ℕ) (report soname : Text) (p : Proc) :
    Decides p (findLibrary k fuel report soname p) (LookupFits k fuel .host soname p) := by
  refine (openModule_decides k fuel .host soname p).andThen fun r q => ?_
  cases r with
  | ok fd => exact ⟨_,rfl⟩
  | error e => exact ⟨_,rfl⟩

/-- A text comes back from a buffer of zeros exactly if it fits with a NUL behind it. -/
lemma readBack_eq_some_iff {size : ℕ} {text : Text} (h : text.length ≤ size) :
    readBack (text++zeroed (size-text.length)) = some text ↔ text.length < size ∧ nul ∉ text := by
  by_cases hlt : text.length < size
  · rw [readBack_append_zeroed text (by omega),Option.some_inj,cstr_eq_self_iff,
      and_iff_right hlt]
  · refine iff_of_false (fun heq => ?_) fun h => hlt h.1
    rw [show size-text.length = 0 by omega,zeroed,List.replicate_zero,List.append_nil,readBack] at heq
    split_ifs at heq with hmem
    exact (cstr_eq_self_iff text).mp (Option.some.inj heq) hmem

lemma copyAll_zeroed (size : ℕ) (srcs : List Text) : copyAll (zeroed size) srcs =
    if size < srcs.flatten.length then none
    else some (srcs.flatten++zeroed (size-srcs.flatten.length)) := by
  rw [copyAll_eq,zeroed,List.length_replicate,List.drop_replicate,zeroed]

lemma loadOverride_decides (soname var : Text) :
    Decides p (loadOverride k fuel soname (varName name) var p) (OverrideFits k fuel name var p) := by
  rw [loadOverride,OverrideFits]
  split_ifs with hslash
  · refine (openSysrootRdonly_decides k .override .cwd var p).andThen fun r q => ?_
    cases r with
    | ok file => exact ⟨_,rfl⟩
    | error e => exact ⟨_,rfl⟩
  · cases hentry : cenvEntry k.environ (varName name) with
    | none =>
      rw [getCenv_of_none hentry]
      refine decides_panic ?_
      rintro ⟨e,he,-⟩
      cases he
    | some e =>
      rw [getCenv_of_some hentry]
      split_ifs with he
      · refine (findLibrary_decides k fuel soname _ p).congr ?_
        simp [he]
      · refine decides_panic ?_
        rintro ⟨e',he',hmem,-⟩
        exact he (Option.some.inj he' ▸ hmem)

/-- The buffer of the variable's name holds zeros where the default name ends. -/
lemma copyAll_default (h : (varName name).length ≤ 96) :
    copyAll (varName name++zeroed (96-(varName name).length))
      [ascii "libwl-usi-",name,ascii ".so"] =
    if 96 < (defaultName name).length then none
    else some (defaultName name++zeroed (96-(defaultName name).length)) := by
  have hflat : [ascii "libwl-usi-",name,ascii ".so"].flatten = defaultName name := by
    simp [defaultName]
  have hlen : (varName name++zeroed (96-(varName name).length)).length = 96 := by
    rw [List.length_append,zeroed,List.length_replicate]
    omega
  have hle : (varName name).length ≤ (defaultName name).length := by
    have hvar : (ascii "WL_SUBSYS_").length = 10 := rfl
    have hlib : (ascii "libwl-usi-").length = 10 := rfl
    simp only [varName,defaultName,List.length_append]
    omega
  rw [copyAll_eq,hflat,hlen,List.drop_append,List.drop_eq_nil_of_le hle,List.nil_append,zeroed,
    List.drop_replicate,zeroed]
  congr 4
  omega

lemma loadDefault_decides (h : (varName name).length ≤ 96) :
    Decides p (loadDefault k fuel name p (copyAll (varName name++zeroed (96-(varName name).length))
      [ascii "libwl-usi-",name,ascii ".so"])) (DefaultFits k fuel name p) := by
  rw [copyAll_default h]
  split_ifs with hlen
  · rw [loadDefault]
    refine decides_use_panic fun h => ?_
    exact absurd h.1 (by omega)
  · have hback := readBack_eq_some_iff (not_lt.mp hlen)
    rw [loadDefault]
    cases hread : readBack (defaultName name++zeroed (96-(defaultName name).length)) with
    | none =>
      refine decides_use_panic fun h => ?_
      rw [hback.mpr ⟨h.1,h.2.1⟩] at hread
      cases hread
    | some soname =>
      rw [hread] at hback
      refine (findLibrary_decides k fuel soname soname _).use.congr ?_
      rw [DefaultFits,← and_assoc,← hback]
      refine and_congr_right fun heq => ?_
      rw [Option.some.inj heq]

lemma loadNamed_decides (soname : Text) : Decides p
    (loadNamed k fuel name soname p (copyAll (zeroed 96) [ascii "WL_SUBSYS_",name]))
    ((varName name).length ≤ 96 ∧
      LibraryFits k fuel name (p.use (.slice 96 (varName name) (some (varName name))))) := by
  have hflat : [ascii "WL_SUBSYS_",name].flatten = varName name := by simp [varName]
  rw [copyAll_zeroed,hflat]
  split_ifs with hlen
  · rw [loadNamed]
    refine decides_use_panic fun h => ?_
    exact absurd h.1 (not_le.mpr hlen)
  · rw [loadNamed]
    simp only [List.take_left]
    have hslice : (Use.slice 96 (varName name) (some (varName name))).Exact ↔
        (varName name).length ≤ 96 := iff_of_true rfl (not_lt.mp hlen)
    refine Decides.congr (Decides.use ?_) (and_congr_left fun _ => hslice)
    rw [LibraryFits]
    cases getEnv k.environ (varName name) with
    | some var => exact loadOverride_decides soname var
    | none => exact loadDefault_decides (not_lt.mp hlen)

lemma loadSubsystem_decides (k : Kernel) (fuel : ℕ) (name : Text) (p : Proc) :
    Decides p (loadSubsystem k fuel name p) (NameFits k fuel name p) := by
  have hflat : [ascii "libusi-",name,ascii ".so"].flatten = subsystemName name := by
    simp [subsystemName]
  rw [loadSubsystem,copyAll_zeroed,hflat]
  split_ifs with hlen
  · rw [loadBuffered]
    refine decides_use_panic fun h => ?_
    exact absurd h.1.1 (by omega)
  · rw [loadBuffered]
    refine (loadNamed_decides _).use.congr ?_
    rw [NameFits,← readBack_eq_some_iff (not_lt.mp hlen)]
    refine and_congr_right fun hexact => ?_
    rw [show readBack _ = some (subsystemName name) from hexact]
    rfl

/-- The buffers of a fixed size are used safely exactly if what is put in them fits and the locks on
the way can be used. Of a lookup in a search list that is there already, on files that stay as they
are, that are the candidate paths up to the one that decides. -/
theorem name_buffers_safe_iff (k : Kernel) (fuel : ℕ) (why : Purpose) (dir : At)
    (search : SearchType) (st soname name : Text) (p : Proc) :
    (Safe p (openSysrootRdonly k why dir st p) ↔ PathFits k p.sysroot st) ∧
    (Safe p (openModule k fuel search soname p) ↔ LookupFits k fuel search soname p) ∧
    (Safe p (loadSubsystem k fuel name p) ↔ NameFits k fuel name p) ∧
    ∀ search soname list (q : Proc), q.lists search = .ready list → k.Steady →
      (LookupFits k fuel search soname q ↔
        PathsFit k q.sysroot (choose (k.lookup q.sysroot) (candidates list soname)).1) :=
  ⟨(openSysrootRdonly_decides k why dir st p).2,(openModule_decides k fuel search soname p).2,
    (loadSubsystem_decides k fuel name p).2,
    fun _ soname _ _ hlist hk => lookupFits_iff hk fuel soname hlist⟩

/-- A name of 83 bytes fills the buffer of the default name, and one of 86 bytes that of the
subsystem's name, which is then read past its end. -/
theorem long_names_unsafe :
    (loadSubsystem emptyKernel 0 (List.replicate 83 0x61) Proc.start).result = .panic ∧
    Use.name 96 (subsystemName (List.replicate 86 0x61)) none ∈
      (loadSubsystem emptyKernel 0 (List.replicate 86 0x61) Proc.start).state.uses := by
  decide +kernel

end Safety

end WinterLily.Lookup
