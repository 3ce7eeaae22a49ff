import WinterLily.Base.CString
import WinterLily.Base.Utf8

/-! The part of `__rust_entry` in `wl-ld-lilium/src/entry.rs` that finds the program to run and its
arguments. The words of `argv` are walked by a `NullTerm` iterator, while `argc` is counted down by
the iterator's `inspect` and `argv` itself is moved by the options. The counts wrap, as the crate is
built without overflow checks. -/
namespace WinterLily.Entry
open WinterLily.Memory WinterLily.Stack WinterLily.CString WinterLily.Utf8

section Options

def dashes : Text := [0x2D,0x2D]
def helpOption : Text := dashes++[0x68,0x65,0x6C,0x70]
def versionOption : Text := dashes++[0x76,0x65,0x72,0x73,0x69,0x6F,0x6E]
def argv0Option : Text := dashes++[0x61,0x72,0x67,0x76,0x30]
def preloadOption : Text := dashes++[0x70,0x72,0x65,0x6C,0x6F,0x61,0x64,0x2D]
def preloadSubsystemOption : Text :=
  preloadOption++[0x73,0x75,0x62,0x73,0x79,0x73,0x74,0x65,0x6D]
def preloadNativeOption : Text := preloadOption++[0x6E,0x61,0x74,0x69,0x76,0x65]
def preloadLiliumOption : Text := preloadOption++[0x6C,0x69,0x6C,0x69,0x75,0x6D]

/-- The arms of the `match` on an argument. -/
inductive Arm
  | help
  | version
  | argv0
  | preload
  | unknown
  | program
  deriving DecidableEq, Repr

def Arm.of (arg : Text) : Arm :=
  if isUtf8 arg = false then .program
  else if arg = helpOption then .help
  else if arg = versionOption then .version
  else if arg = argv0Option then .argv0
  else if arg = preloadSubsystemOption then .preload
  else if arg = preloadNativeOption then .preload
  else if arg = preloadLiliumOption then .preload
  else if dashes.isPrefixOf arg then .unknown
  else .program

end Options

/-- `argc`, `argv`, the position of the iterator and `argv0_override`. -/
structure Args where
  argc : Word
  argv : Word
  it : Word
  override : Word
  deriving DecidableEq, Repr

/-- How the loop over the arguments ends. -/
inductive Parsed
  | exit (code : ℕ)
  | panicked
  | missing
  | program (name : Text) (s : Args)

/-- The `match` on an argument, before `next` goes on to those after it. -/
def turn (m : Mem 64) (next : Args → Option Parsed) (arg : Text) (s : Args) : Option Parsed :=
  match Arm.of arg with
  | .help | .version => some (.exit 0)
  | .argv0 => next { s with override := m.word (s.argv+8#64), argv := s.argv+16#64 }
  | .preload => some .panicked
  | .unknown => some (.exit 1)
  | .program => some (.program arg { s with argc := s.argc+1#64 })

/-- The loop over the arguments. The strings are read with `len` bytes of fuel. -/
def parse (m : Mem 64) (len : ℕ) : ℕ → Args → Option Parsed
  | 0,_ => none
  | fuel+1,s =>
    if m.word s.it = 0#64 then some .missing
    else
      (readCStr m len (m.word s.it)).bind fun arg =>
        turn m (parse m len fuel) arg { s with it := s.it+8#64, argc := s.argc-1#64 }

/-- What `open` returns for a path, and `openat` if it does not fail. -/
structure Files where
  opened : Text → BitVec 32
  openat : Text → Option (BitVec 32)

/-- What `__rust_entry` takes from the auxiliary vector: `AT_EXECFD`, `AT_EXECFN` and `AT_BASE`. -/
structure Aux where
  execfd : BitVec 32
  execfn : Word
  atBase : Word

/-- Where the search for a program ends: with an exit, or with the descriptor to load from and what
will be passed on. -/
inductive Ending
  | exit (code : ℕ)
  | panicked
  | crashed
  | launch (execfd : BitVec 32) (argc argv : Word) (m : Mem 64)

/-- After the loop: the paths that are opened, and the end. -/
def enter (F : Files) (m : Mem 64) : Parsed → List Text × Ending
  | .exit code => ([],.exit code)
  | .panicked => ([],.panicked)
  | .missing => ([],.exit 1)
  | .program name s =>
    match F.openat name with
    | none => ([name],.exit 1)
    | some fd => ([name],.launch fd s.argc s.argv
        (if s.override = 0#64 then m else m.setWord s.argv s.override))

/-- The loader's own name is left out. -/
def Args.first (argc argv : Word) : Args := ⟨argc-1#64,argv+8#64,argv+8#64,0#64⟩

/-- Without a program from the kernel the arguments are looked through. -/
def parseArgs (F : Files) (fuel : ℕ) (argc argv : Word) (m : Mem 64) :
    Option (List Text × Ending) :=
  if argc < 1#64 then some ([],.crashed)
  else
    (readCStr m fuel (m.word argv)).bind fun prgName =>
      if isUtf8 prgName = false then some ([],.panicked)
      else (parse m fuel fuel (.first argc argv)).map (enter F m)

/-- `__rust_entry` from its block `'a` up to the program's descriptor and arguments. Before it the
auxiliary vector and the debug variable are read; an `AT_SECURE` that is not zero, which exits, and a
variable that does not parse, which panics, do not get here. -/
def rustEntry (F : Files) (fuel : ℕ) (aux : Aux) (argc argv : Word) (m : Mem 64) :
    Option (List Text × Ending) :=
  if aux.execfd ≠ -1#32 then some ([],.launch aux.execfd argc argv m)
  else if aux.execfn = 0#64 then parseArgs F fuel argc argv m
  else
    (readCStr m fuel aux.execfn).bind fun execfn =>
      if isUtf8 execfn = false then some ([],.panicked)
      else if aux.atBase ≠ 0#64 then some ([execfn],.launch (F.opened execfn) argc argv m)
      else parseArgs F fuel argc argv m

/-- The arguments before the program: each name after `--argv0`. -/
def optionArgs (names : List Text) : List Text := names.flatMap fun name => [argv0Option,name]

/-- The loader was started directly with these arguments: the kernel passes no program, and if it
passes the loader's own path then as a string. -/
structure Invoked (m : Mem 64) (aux : Aux) (argc argv : Word) (execfn : Option Text)
    (loader : Text) (names : List Text) (prog : Text) (rest : List Text) : Prop where
  direct : aux.execfd = -1#32 ∧ aux.atBase = 0#64
  path : ∀ t, execfn = some t → aux.execfn ≠ 0#64 ∧ CStr m aux.execfn t
  noPath : execfn = none → aux.execfn = 0#64
  count : argc.toNat = 2*names.length+rest.length+2
  strings : Strings m argv (loader::(optionArgs names++prog::rest))
  plain : dashes.isPrefixOf prog = false

/-- The name the program is to see. -/
def shownName (names : List Text) (prog : Text) : Text := names.getLastD prog

/-- Whatever else the kernel would open, the program is opened, and entered with its arguments. -/
def Passes (m : Mem 64) (aux : Aux) (argc argv : Word) (names : List Text) (prog : Text)
    (rest : List Text) : Prop :=
  ∀ (F : Files) (fd : BitVec 32), F.openat prog = some fd →
    ∃ bound, ∀ fuel, bound ≤ fuel → ∃ argc' argv' m',
      rustEntry F fuel aux argc argv m = some ([prog],.launch fd argc' argv' m') ∧
        argc'.toNat = rest.length+1 ∧ Strings m' argv' (shownName names prog::rest)

/-- Memory after `*argv = argv0_override`, where the override was read from the word before. -/
def overridden (m : Mem 64) (argv : Word) (i : ℕ) : Mem 64 :=
  if m.word (cell argv i) = 0#64 then m
  else m.setWord (cell argv (i+1)) (m.word (cell argv i))

section Arms

lemma arm_argv0 : Arm.of argv0Option = .argv0 := by decide

lemma ne_of_plain {arg option : Text} (h : dashes.isPrefixOf arg = false)
    (hoption : dashes.isPrefixOf option = true) : arg ≠ option := by
  rintro rfl
  rw [hoption] at h
  cases h

/-- An argument without the dashes is the program. -/
lemma arm_of_plain {arg : Text} (h : dashes.isPrefixOf arg = false) : Arm.of arg = .program := by
  unfold Arm.of
  rw [if_neg (ne_of_plain h (by decide)),if_neg (ne_of_plain h (by decide)),
    if_neg (ne_of_plain h (by decide)),if_neg (ne_of_plain h (by decide)),
    if_neg (ne_of_plain h (by decide)),if_neg (ne_of_plain h (by decide)),h]
  simp

lemma eq_of_arm_argv0 {arg : Text} (h : Arm.of arg = .argv0) : arg = argv0Option := by
  unfold Arm.of at h
  split_ifs at h with h₁ h₂ h₃ h₄
  exact h₄

end Arms

section Loop

variable {m : Mem 64} {len fuel : ℕ} {s : Args} {arg : Text} {ts : List Text}

/-- The state after `k` options. -/
def Args.skipped (m : Mem 64) (s : Args) (k : ℕ) : Args :=
  ⟨s.argc-BitVec.ofNat 64 k,cell s.argv (2*k),cell s.it k,
    if k = 0 then s.override else m.word (cell s.argv (2*k-1))⟩

lemma parse_succ (h : Strings m s.it (arg::ts)) (hlen : arg.length < len) :
    parse m len (fuel+1) s =
      turn m (parse m len fuel) arg { s with it := s.it+8#64, argc := s.argc-1#64 } := by
  rw [parse,if_neg h.1,h.2.1.read hlen]
  rfl

lemma turn_argv0 (next : Args → Option Parsed) :
    turn m next argv0Option s =
      next { s with override := m.word (s.argv+8#64), argv := s.argv+16#64 } := by
  rw [turn,arm_argv0]

lemma skipped_succ (m : Mem 64) (s : Args) (k : ℕ) :
    Args.skipped m ⟨s.argc-1#64,s.argv+16#64,s.it+8#64,m.word (s.argv+8#64)⟩ k =
      s.skipped m (k+1) := by
  have htwo : ∀ j, cell (s.argv+16#64) j = cell s.argv (2+j) := fun j => cell_cell s.argv 2 j
  have hone : cell (s.it+8#64) k = cell s.it (k+1) := by
    rw [Nat.add_comm k]
    exact cell_cell s.it 1 k
  have hargc : s.argc-1#64-BitVec.ofNat 64 k = s.argc-BitVec.ofNat 64 (k+1) := by
    rw [Nat.add_comm k,BitVec.ofNat_add]
    exact sub_sub _ _ _
  have hoverride : (if k = 0 then m.word (s.argv+8#64) else m.word (cell s.argv (2+(2*k-1)))) =
      m.word (cell s.argv (2*(k+1)-1)) := by
    split_ifs with hk
    · rw [hk]
      rfl
    · congr 2
      omega
  simp only [Args.skipped,htwo,hone,hargc,hoverride,Nat.succ_ne_zero,if_false]
  rw [show 2+2*k = 2*(k+1) by omega]

/-- The options move `argv` by two words each, and the iterator by one. -/
lemma parse_options (hlen : argv0Option.length < len) (k : ℕ)
    (h : Strings m s.it (List.replicate k argv0Option++ts)) :
    parse m len (fuel+k) s = parse m len fuel (s.skipped m k) := by
  induction k generalizing s with
  | zero =>
    have hzero : s.skipped m 0 = s := by simp [Args.skipped]
    rw [hzero]
    rfl
  | succ k ih =>
    rw [List.replicate_succ,List.cons_append] at h
    rw [← Nat.add_assoc,parse_succ h hlen,turn_argv0,ih h.2.2,skipped_succ]

/-- The first argument that is not an option. -/
lemma parse_program (hlen : arg.length < len) (h : Strings m s.it (arg::ts))
    (harm : Arm.of arg = .program) :
    parse m len (fuel+1) s = some (.program arg { s with it := s.it+8#64 }) := by
  rw [parse_succ h hlen,turn,harm]
  simp

/-- Any other argument ends the loop without a program. -/
lemma parse_other (hlen : arg.length < len) (h : Strings m s.it (arg::ts))
    (hargv0 : Arm.of arg ≠ .argv0) (hprogram : Arm.of arg ≠ .program) :
    ∃ r, parse m len (fuel+1) s = some r ∧ ∀ name t, r ≠ .program name t := by
  rw [parse_succ h hlen,turn]
  cases harm : Arm.of arg with
  | argv0 => exact absurd harm hargv0
  | program => exact absurd harm hprogram
  | help | version => exact ⟨.exit 0,rfl,by simp⟩
  | preload => exact ⟨.panicked,rfl,by simp⟩
  | unknown => exact ⟨.exit 1,rfl,by simp⟩

end Loop

section Direct

variable {m : Mem 64} {aux : Aux} {argc argv : Word} {execfn : Option Text} {loader prog : Text}
  {names rest : List Text} {F : Files} {fuel : ℕ}

/-- Fuel enough for every string and every argument. -/
def enough (execfn : Option Text) (loader : Text) (names : List Text) (prog : Text)
    (rest : List Text) : ℕ :=
  (execfn.getD []).length+(loader::(optionArgs names++prog::rest)).flatten.length+
    2*names.length+argv0Option.length+2

lemma length_lt_enough {t : Text} (ht : t ∈ loader::(optionArgs names++prog::rest))
    (hfuel : enough execfn loader names prog rest ≤ fuel) : t.length < fuel := by
  have hle := (List.sublist_flatten_of_mem ht).length_le
  unfold enough at hfuel
  omega

lemma execfn_lt_enough {t : Text} (ht : execfn = some t)
    (hfuel : enough execfn loader names prog rest ≤ fuel) : t.length < fuel := by
  rw [ht] at hfuel
  unfold enough at hfuel
  change t.length+_+_+_+_ ≤ fuel at hfuel
  omega

lemma Invoked.parseArgs_eq (h : Invoked m aux argc argv execfn loader names prog rest)
    (hfuel : enough execfn loader names prog rest ≤ fuel) :
    parseArgs F fuel argc argv m =
      if isUtf8 loader = false then some ([],.panicked)
      else (parse m fuel fuel (.first argc argv)).map (enter F m) := by
  have hcount := h.count
  have hargc : ¬ argc < 1#64 := by
    rw [BitVec.lt_def]
    change ¬ argc.toNat < 1
    omega
  have hread := h.strings.2.1.read (length_lt_enough (by simp) hfuel)
  rw [parseArgs,if_neg hargc,hread]
  rfl

/-- A path or a name of the loader that is not UTF-8 is fatal. Otherwise the arguments after it are
looked through. -/
lemma Invoked.rustEntry_eq (h : Invoked m aux argc argv execfn loader names prog rest)
    (hfuel : enough execfn loader names prog rest ≤ fuel) :
    rustEntry F fuel aux argc argv m =
      if execfn.all isUtf8 = true ∧ isUtf8 loader = true then
        (parse m fuel fuel (.first argc argv)).map (enter F m)
      else some ([],.panicked) := by
  have hfd : ¬ aux.execfd ≠ -1#32 := not_not_intro h.direct.1
  have hbase : ¬ aux.atBase ≠ 0#64 := not_not_intro h.direct.2
  have hparse : parseArgs F fuel argc argv m = if isUtf8 loader = true then
      (parse m fuel fuel (.first argc argv)).map (enter F m)
      else some ([],.panicked) := by
    rw [h.parseArgs_eq hfuel]
    cases isUtf8 loader <;> rfl
  unfold rustEntry
  rw [if_neg hfd,hparse]
  cases execfn with
  | none =>
    rw [if_pos (h.noPath rfl)]
    simp
  | some t =>
    obtain ⟨hne,hstr⟩ := h.path t rfl
    rw [if_neg hne,hstr.read (execfn_lt_enough rfl hfuel),Option.bind_some,if_neg hbase]
    cases hutf : isUtf8 t with
    | true => simp [hutf]
    | false => simp [hutf]

lemma optionArgs_of_all (hall : ∀ name ∈ names, name = argv0Option) :
    optionArgs names = List.replicate (2*names.length) argv0Option := by
  induction names with
  | nil => rfl
  | cons name names ih =>
    have hcons : optionArgs (name::names) = argv0Option::name::optionArgs names := rfl
    rw [hcons,ih fun x hx => hall x (by simp [hx]),hall name (by simp)]
    rfl

/-- Names that are not all `--argv0` have a first one that is something else. -/
lemma optionArgs_of_not_all (hall : ¬ ∀ name ∈ names, name = argv0Option) :
    ∃ j name ts, optionArgs names = List.replicate (2*j+1) argv0Option++name::ts ∧
      name ≠ argv0Option ∧ j < names.length := by
  induction names with
  | nil => exact absurd (by simp) hall
  | cons name names ih =>
    have hcons : optionArgs (name::names) = argv0Option::name::optionArgs names := rfl
    by_cases hname : name = argv0Option
    · obtain ⟨j,x,ts,heq,hx,hj⟩ := ih fun h => hall (by simpa [hname] using h)
      refine ⟨j+1,x,ts,?_,hx,by simpa using hj⟩
      rw [hcons,heq,hname]
      rfl
    · exact ⟨0,name,optionArgs names,hcons,hname,by simp⟩

/-- The arguments after the loader. -/
lemma Invoked.tail (h : Invoked m aux argc argv execfn loader names prog rest) :
    Strings m (argv+8#64) (optionArgs names++prog::rest) := h.strings.2.2

/-- The loop gets to the first argument after the options. -/
lemma Invoked.skips (h : Invoked m aux argc argv execfn loader names prog rest)
    (hfuel : enough execfn loader names prog rest ≤ fuel) {k : ℕ} {arg : Text} {ts : List Text}
    (htail : optionArgs names++prog::rest = List.replicate k argv0Option++arg::ts)
    (hk : k ≤ 2*names.length) :
    ∃ f, parse m fuel fuel (.first argc argv) =
        parse m fuel (f+1) ((Args.first argc argv).skipped m k) ∧
      Strings m ((Args.first argc argv).skipped m k).it (arg::ts) ∧ arg.length < fuel := by
  have hstrings := h.tail
  rw [htail] at hstrings
  obtain ⟨f,hf⟩ : ∃ f, fuel = f+1+k := by
    refine ⟨fuel-1-k,?_⟩
    unfold enough at hfuel
    omega
  refine ⟨f,?_,?_,length_lt_enough ?_ hfuel⟩
  · have hlen : argv0Option.length < fuel := by
      unfold enough at hfuel
      omega
    have hskip : parse m fuel (f+1+k) (.first argc argv) = _ := parse_options hlen k hstrings
    rwa [← hf] at hskip
  · have hlast := (strings_append.mp hstrings).2
    rwa [List.length_replicate] at hlast
  · rw [htail]
    simp

lemma skipped_argc (m : Mem 64) (argv : Word) {k : ℕ} (h : k < argc.toNat) :
    ((Args.first argc argv).skipped m k).argc.toNat = argc.toNat-(k+1) := by
  have hlt := argc.isLt
  change (argc-1#64-BitVec.ofNat 64 k).toNat = _
  rw [BitVec.toNat_sub,BitVec.toNat_sub,BitVec.toNat_ofNat,BitVec.toNat_ofNat]
  omega

/-- With names that are all `--argv0` the program is found, but each of them has moved `argv` as
well. -/
lemma Invoked.finds_program (h : Invoked m aux argc argv execfn loader names prog rest)
    (hfuel : enough execfn loader names prog rest ≤ fuel)
    (hall : ∀ name ∈ names, name = argv0Option) :
    ∃ it, parse m fuel fuel (.first argc argv) = some (.program prog
      { (Args.first argc argv).skipped m (2*names.length) with it := it }) := by
  obtain ⟨f,hparse,hstrings,hlen⟩ := h.skips hfuel
    (by rw [optionArgs_of_all hall]) le_rfl
  exact ⟨_,hparse.trans (parse_program hlen hstrings (arm_of_plain h.plain))⟩

/-- A name that is not `--argv0` is taken for the program, if not for an option. -/
lemma Invoked.stops_early (h : Invoked m aux argc argv execfn loader names prog rest)
    (hfuel : enough execfn loader names prog rest ≤ fuel) {j : ℕ} {name : Text} {ts : List Text}
    (hsplit : optionArgs names = List.replicate (2*j+1) argv0Option++name::ts)
    (hname : name ≠ argv0Option) (hj : j < names.length) :
    ∃ r, parse m fuel fuel (.first argc argv) = some r ∧
      ∀ found s, r = .program found s → s.argc.toNat = rest.length+2*(names.length-j) := by
  have htail : optionArgs names++prog::rest =
      List.replicate (2*j+1) argv0Option++name::(ts++prog::rest) := by
    rw [hsplit]
    simp
  obtain ⟨f,hparse,hstrings,hlen⟩ := h.skips hfuel htail (by omega)
  rw [hparse]
  by_cases hprogram : Arm.of name = .program
  · refine ⟨_,parse_program hlen hstrings hprogram,?_⟩
    rintro found s ⟨⟩
    have hcount := h.count
    refine (skipped_argc m argv (by omega)).trans ?_
    omega
  · obtain ⟨r,hr,hnot⟩ := parse_other hlen hstrings (fun harm => hname (eq_of_arm_argv0 harm))
      hprogram
    exact ⟨r,hr,fun found s heq => absurd heq (hnot found s)⟩

/-- The name shown is the last word that was skipped. -/
lemma skipped_override (m : Mem 64) (argc argv : Word) {k : ℕ} (hk : k ≠ 0) :
    ((Args.first argc argv).skipped m (2*k)).override = m.word (cell argv (4*k)) := by
  have hpos : 2*k ≠ 0 := by omega
  refine (if_neg hpos).trans (congrArg m.word ?_)
  rw [show 4*k = 1+(2*(2*k)-1) by omega]
  exact cell_cell argv 1 _

/-- The program is opened and gets the right count, but the words two further for each name. -/
lemma Invoked.launch (h : Invoked m aux argc argv execfn loader names prog rest)
    (hfuel : enough execfn loader names prog rest ≤ fuel)
    (hutf : execfn.all isUtf8 = true ∧ isUtf8 loader = true)
    (hall : ∀ name ∈ names, name = argv0Option) {fd : BitVec 32}
    (hopen : F.openat prog = some fd) :
    ∃ argc', argc'.toNat = rest.length+1 ∧ rustEntry F fuel aux argc argv m =
      some ([prog],.launch fd argc' (cell argv (4*names.length+1))
        (if names = [] then m else overridden m argv (4*names.length))) := by
  obtain ⟨it,hparse⟩ := h.finds_program hfuel hall
  have hcount := h.count
  refine ⟨((Args.first argc argv).skipped m (2*names.length)).argc,?_,?_⟩
  · rw [skipped_argc m argv (by omega)]
    omega
  · have hargv : cell (argv+8#64) (2*(2*names.length)) = cell argv (4*names.length+1) := by
      rw [show 4*names.length+1 = 1+2*(2*names.length) by omega]
      exact cell_cell argv 1 _
    have hmem : (if ((Args.first argc argv).skipped m (2*names.length)).override = 0#64 then m
        else m.setWord (cell argv (4*names.length+1))
          ((Args.first argc argv).skipped m (2*names.length)).override) =
        if names = [] then m else overridden m argv (4*names.length) := by
      by_cases hnil : names = []
      · rw [if_pos hnil,hnil]
        exact if_pos rfl
      · rw [skipped_override m argc argv (List.length_pos_iff.mpr hnil).ne',if_neg hnil]
        rfl
    rw [h.rustEntry_eq hfuel,if_pos hutf,hparse,← hmem,← hargv]
    simp only [Option.map_some,enter,hopen]
    rfl

end Direct

section Necessary

variable {m : Mem 64} {aux : Aux} {argc argv : Word} {execfn : Option Text} {loader prog : Text}
  {names rest : List Text}

/-- A kernel that opens anything. -/
def anyFile : Files := ⟨fun _ => 3#32,fun _ => some 3#32⟩

/-- With enough fuel a run passes the arguments on. -/
lemma Passes.run (hpass : Passes m aux argc argv names prog rest) (loader : Text)
    (execfn : Option Text) :
    ∃ fuel, enough execfn loader names prog rest ≤ fuel ∧ ∃ argc' argv' m',
      rustEntry anyFile fuel aux argc argv m = some ([prog],.launch 3#32 argc' argv' m') ∧
        argc'.toNat = rest.length+1 ∧ Strings m' argv' (shownName names prog::rest) := by
  obtain ⟨bound,hrun⟩ := hpass anyFile 3#32 rfl
  exact ⟨max bound (enough execfn loader names prog rest),le_max_right _ _,hrun _ (le_max_left _ _)⟩

lemma Passes.utf8 (hpass : Passes m aux argc argv names prog rest)
    (h : Invoked m aux argc argv execfn loader names prog rest) :
    execfn.all isUtf8 = true ∧ isUtf8 loader = true := by
  obtain ⟨fuel,hfuel,argc',argv',m',hrun,-⟩ := hpass.run loader execfn
  by_contra hbad
  rw [h.rustEntry_eq hfuel,if_neg hbad] at hrun
  cases hrun

lemma shownName_of_all (hall : ∀ name ∈ names, name = argv0Option) (hne : names ≠ []) :
    shownName names prog = argv0Option := by
  rw [shownName,List.getLastD_eq_getLast?,List.getLast?_eq_some_getLast hne]
  exact hall _ (List.getLast_mem hne)

lemma Passes.shown (hpass : Passes m aux argc argv names prog rest)
    (h : Invoked m aux argc argv execfn loader names prog rest) :
    names = [] ∨ (∀ name ∈ names, name = argv0Option) ∧
      Strings (overridden m argv (4*names.length)) (cell argv (4*names.length+1))
        (argv0Option::rest) := by
  have hutf := hpass.utf8 h
  obtain ⟨fuel,hfuel,argc',argv',m',hrun,hargc,hstrings⟩ := hpass.run loader execfn
  by_cases hall : ∀ name ∈ names, name = argv0Option
  · obtain ⟨argc'',-,hlaunch⟩ := h.launch hfuel hutf hall
      (rfl : anyFile.openat prog = some 3#32)
    by_cases hnil : names = []
    · exact .inl hnil
    · rw [hlaunch,if_neg hnil] at hrun
      cases hrun
      rw [shownName_of_all hall hnil] at hstrings
      exact .inr ⟨hall,hstrings⟩
  · -- a name taken for the program leaves a count of the wrong parity
    obtain ⟨j,name,ts,hsplit,hname,hj⟩ := optionArgs_of_not_all hall
    obtain ⟨r,hparse,hcount⟩ := h.stops_early hfuel hsplit hname hj
    rw [h.rustEntry_eq hfuel,if_pos hutf,hparse] at hrun
    cases r with
    | program found s =>
      have hfound := hcount found s rfl
      cases hrun
      omega
    | exit code => cases hrun
    | panicked => cases hrun
    | missing => cases hrun

end Necessary

/-- The program and its arguments are passed on exactly when there is no name to be shown, or when
the words further on happen to be the right ones. -/
theorem arguments_passed_iff {m : Mem 64} {aux : Aux} {argc argv : Word} {execfn : Option Text}
    {loader prog : Text} {names rest : List Text}
    (h : Invoked m aux argc argv execfn loader names prog rest) :
    Passes m aux argc argv names prog rest ↔
      (execfn.all isUtf8 = true ∧ isUtf8 loader = true) ∧
        (names = [] ∨ (∀ name ∈ names, name = argv0Option) ∧
          Strings (overridden m argv (4*names.length)) (cell argv (4*names.length+1))
            (argv0Option::rest)) := by
  constructor
  · intro hpass
    exact ⟨hpass.utf8 h,hpass.shown h⟩
  · rintro ⟨hutf,hnames⟩ F fd hopen
    refine ⟨enough execfn loader names prog rest,fun fuel hfuel => ?_⟩
    by_cases hnil : names = []
    · obtain ⟨argc',hargc,hlaunch⟩ := h.launch hfuel hutf (by simp [hnil]) hopen
      have htail := h.tail
      subst hnil
      exact ⟨argc',_,m,hlaunch,hargc,htail⟩
    · obtain ⟨hall,hstrings⟩ := hnames.resolve_left hnil
      obtain ⟨argc',hargc,hlaunch⟩ := h.launch hfuel hutf hall hopen
      rw [if_neg hnil] at hlaunch
      refine ⟨argc',_,_,hlaunch,hargc,?_⟩
      rw [shownName_of_all hall hnil]
      exact hstrings

section Sample

/-- The pointers at 0x1000, and the strings from 0x2000 on at every 256 bytes. -/
def commandLine (args : List Text) : Mem 64 := fun a =>
  if 0x2000#64 ≤ a then
    ((args.getD ((a.toNat-0x2000)/0x100) []).getD ((a.toNat-0x2000)%0x100) 0#8)
  else if 0x1000#64 ≤ a ∧ (a.toNat-0x1000)/8 < args.length then
    BitVec.ofNat 8 ((0x2000+0x100*((a.toNat-0x1000)/8))/256^((a.toNat-0x1000)%8))
  else 0#8

/-- The descriptor, the count and the words that are passed on. -/
def Ending.passed : Ending → Option (BitVec 32 × Word × Word)
  | .launch execfd argc argv _ => some (execfd,argc,argv)
  | _ => none

/-- What the kernel tells a loader that is started directly. -/
def directAux : Aux := ⟨-1#32,0#64,0#64⟩

/-- The loader `l` is started with the program `p` and the argument `a`. -/
theorem arguments_passed_iff_plain :
    Invoked (commandLine [[0x6C],[0x70],[0x61]]) directAux 3#64 0x1000#64 none [0x6C] [] [0x70]
        [[0x61]] ∧
      Passes (commandLine [[0x6C],[0x70],[0x61]]) directAux 3#64 0x1000#64 [] [0x70] [[0x61]] := by
  have h : Invoked (commandLine [[0x6C],[0x70],[0x61]]) directAux 3#64 0x1000#64 none [0x6C] []
      [0x70] [[0x61]] :=
    ⟨⟨rfl,rfl⟩,by simp,fun _ => rfl,rfl,by decide +kernel,by decide⟩
  exact ⟨h,(arguments_passed_iff h).mpr ⟨⟨rfl,by decide⟩,.inl rfl⟩⟩

/-- With `--argv0 n` in front of the program `p` the file `n` is run, with `p` left to it as an
argument. -/
theorem shown_name_is_run :
    Invoked (commandLine [[0x6C],argv0Option,[0x6E],[0x70]]) directAux 4#64 0x1000#64 none [0x6C]
        [[0x6E]] [0x70] [] ∧
      (rustEntry anyFile 16 directAux 4#64 0x1000#64
        (commandLine [[0x6C],argv0Option,[0x6E],[0x70]])).map (fun r => (r.1,r.2.passed)) =
          some ([[0x6E]],some (3#32,2#64,0x1018#64)) ∧
      ¬ Passes (commandLine [[0x6C],argv0Option,[0x6E],[0x70]]) directAux 4#64 0x1000#64 [[0x6E]]
        [0x70] [] := by
  have h : Invoked (commandLine [[0x6C],argv0Option,[0x6E],[0x70]]) directAux 4#64 0x1000#64 none
      [0x6C] [[0x6E]] [0x70] [] :=
    ⟨⟨rfl,rfl⟩,by simp,fun _ => rfl,rfl,by decide +kernel,by decide⟩
  refine ⟨h,by decide +kernel,fun hpass => ?_⟩
  have hshown := (hpass.shown h).resolve_left (by simp)
  exact absurd (hshown.1 [0x6E] (by simp)) (by decide)

end Sample

end WinterLily.Entry
