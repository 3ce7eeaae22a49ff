import WinterLily.Loader.Includes
import WinterLily.Loader.Lookup

/-! The reading of configuration files with descriptors and without: on a kernel whose calls succeed
when the files are there, both make the same list, which is the one that the environment and the
configuration say. -/
namespace WinterLily.Lookup
open WinterLily.Effect WinterLily.File WinterLily.Reader WinterLily.SplitAscii
open WinterLily.SearchList (Text Sysroot Cache slash star andThen)

/-- Files are found by the bytes of their paths before a NUL, names of directories are relative, and
no call fails but for the files. -/
structure Kernel.Regular (k : Kernel) : Prop where
  openFault : ∀ t, k.openFault t = none
  dents : ∀ t, ∃ n, k.dents t = .count n
  openRdonly : ∀ path, k.root.openRdonly (cstr path) = k.root.openRdonly path
  openAt : ∀ dir name, k.root.openAt dir (cstr name) = k.root.openAt dir name
  relative : ∀ dir names, k.root.listing dir = .ok names → ∀ name ∈ names, name.head? ≠ some slash

section Opening

variable {k : Kernel} {fd : Fd} {p q : Proc}

/-- A call of `open_sysroot_rdonly` that finds this content, and leaves the list alone. -/
def Finds (fd : Fd) (p : Proc) (content : Except Errno Text) (r : Except Errno (Fd × Text))
    (q : Proc) : Prop :=
  q.sysroot = .ready fd ∧ q.cache = p.cache ∧ r.map Prod.snd = content

lemma openSysrootRdonly_finds {why : Purpose} {dir : At} {st : Text} {content : Except Errno Text}
    (hslot : p.sysroot = .ready fd)
    (hfind : ∀ at' path q, Reaches k dir st p at' path q → k.find q.calls at' path = content) :
    (openSysrootRdonly k why dir st p).Returns (Finds fd p content) := by
  have hreach : ∀ {at' path q}, Reaches k dir st p at' path q →
      q.sysroot = .ready fd ∧ q.cache = p.cache := by
    intro at' path q hq
    cases hq with
    | relative => exact ⟨hslot,rfl⟩
    | known => exact ⟨hslot,rfl⟩
    | opened _ hfresh =>
      rw [hslot] at hfresh
      cases hfresh.1
  have hout := openSysrootRdonly_outcome k why dir st p
  generalize openSysrootRdonly k why dir st p = o at hout ⊢
  cases hout with
  | long | stopped => exact Outcome.returns_panic _
  | unopenable _ _ hfresh =>
    rw [hslot] at hfresh
    cases hfresh.1
  | refused _ hq herror =>
    refine Outcome.returns_pure ⟨(hreach hq).1,(hreach hq).2,?_⟩
    rw [← hfind _ _ _ hq,herror]
    rfl
  | found _ hq hok =>
    refine Outcome.returns_pure ⟨(hreach hq).1,(hreach hq).2,?_⟩
    rw [← hfind _ _ _ hq,hok]
    rfl

lemma openSysrootRdonly_cwd (hk : k.Regular) (why : Purpose) (st : Text)
    (hslot : p.sysroot = .ready fd) :
    (openSysrootRdonly k why .cwd st p).Returns (Finds fd p (k.root.openRdonly st)) := by
  refine openSysrootRdonly_finds hslot fun at' path q hq => ?_
  cases hq with
  | relative => rw [Kernel.find,hk.openFault,hk.openRdonly]
  | known hst | opened hst => rw [Kernel.find,hk.openFault,← cstr_slash,hk.openRdonly,hst]

lemma openSysrootRdonly_dir (hk : k.Regular) (why : Purpose) (dirfd : Fd) (dir : Text) {name : Text}
    (hname : name.head? ≠ some slash) (hslot : p.sysroot = .ready fd) :
    (openSysrootRdonly k why (.dir dirfd dir) name p).Returns
      (Finds fd p (k.root.openAt dir name)) := by
  refine openSysrootRdonly_finds hslot fun at' path q hq => ?_
  cases hq with
  | relative => rw [Kernel.find,hk.openFault,hk.openAt]
  | known hst | opened hst =>
    subst hst
    exact absurd rfl hname

end Opening

section Reading

variable {k : Kernel} {fd : Fd} {p q : Proc} {f : ReadFile}
  {g : Text → World → Cache → Option (Except Errno Unit × Cache)}

/-- The result and the list are those of an action without descriptors. -/
def Erases (fd : Fd) (action : SearchList.Action) (p : Proc) (x : Except Errno Unit) (q : Proc) :
    Prop :=
  q.sysroot = .ready fd ∧ action p.cache = some (x,q.cache)

/-- A reader with descriptors does what one without them does. -/
def ErasesTo (fd : Fd) (f : ReadFile)
    (g : Text → World → Cache → Option (Except Errno Unit × Cache)) : Prop :=
  ∀ top d c w p, p.sysroot = .ready fd → (f top d c w p).Returns (Erases fd (g c w) p)

/-- A first part and the rest of an action. -/
lemma Erases.andThen {action rest : SearchList.Action} {r : Proc} {x : Except Errno Unit}
    (h : Erases fd action p (.ok ()) q) (h' : Erases fd rest q x r) :
    Erases fd (fun s => SearchList.andThen (action s) rest) p x r := by
  refine ⟨h'.1,?_⟩
  change SearchList.andThen (action p.cache) rest = _
  rw [h.2]
  exact h'.2

lemma Erases.stops {action rest : SearchList.Action} {e : Errno}
    (h : Erases fd action p (.error e) q) :
    Erases fd (fun s => SearchList.andThen (action s) rest) p (.error e) q := by
  refine ⟨h.1,?_⟩
  change SearchList.andThen (action p.cache) rest = _
  rw [h.2]
  rfl

lemma Erases.congr {action action' : SearchList.Action} {r : Proc} {x : Except Errno Unit}
    (h : Erases fd action q x r) (heq : action' p.cache = action q.cache) :
    Erases fd action' p x r :=
  ⟨h.1,heq.trans h.2⟩

/-- What a file that was looked up is read for. -/
def openedAction (g : Text → World → Cache → Option (Except Errno Unit × Cache)) :
    Except Errno Text → SearchList.Action
  | .error e,s => some (.error e,s)
  | .ok c,s => g c ⟨.new,0⟩ s

lemma finds_error {content : Except Errno Text} {e : Errno} (h : Finds fd p content (.error e) q) :
    content = .error e := h.2.2.symm

lemma finds_ok {content : Except Errno Text} {file : Fd × Text}
    (h : Finds fd p content (.ok file) q) : content = .ok file.2 := h.2.2.symm

/-- A file that was looked up and is read. -/
lemma erases_read (hf : ErasesTo fd f g) {content : Except Errno Text} {file : Fd × Text}
    (h : Finds fd p content (.ok file) q) :
    (f false file.1 file.2 ⟨.new,0⟩ q).Returns (Erases fd (openedAction g content) p) := by
  intro x hx
  obtain ⟨hslot,hread⟩ := hf false file.1 file.2 ⟨.new,0⟩ q h.1 x hx
  refine ⟨hslot,?_⟩
  rw [finds_ok h,← h.2.1]
  exact hread

lemma forEachOpened_cons (g : Text → World → Cache → Option (Except Errno Unit × Cache))
    (root : Sysroot) (dir name : Text) (names : List Text) :
    SearchList.forEachOpened (fun c => g c ⟨.new,0⟩) root dir (name::names) = fun s =>
      SearchList.andThen (openedAction g (root.openAt dir name) s)
        (SearchList.forEachOpened (fun c => g c ⟨.new,0⟩) root dir names) := by
  funext s
  rw [SearchList.forEachOpened]
  cases root.openAt dir name <;> rfl

lemma forEachOpened_append (h : Text → SearchList.Action) (root : Sysroot) (dir : Text)
    (before after : List Text) :
    SearchList.forEachOpened h root dir (before++after) = fun s =>
      SearchList.andThen (SearchList.forEachOpened h root dir before s)
        (SearchList.forEachOpened h root dir after) := by
  funext s
  rw [SearchList.forEachOpened_eq,List.map_append,SearchList.readEach_append,
    SearchList.forEachOpened_eq]
  congr 1
  funext s'
  exact (SearchList.forEachOpened_eq _ _ _ _).symm

lemma forEachEntry_erases (hk : k.Regular) (hf : ErasesTo fd f g) (dirfd : Fd) (dir : Text)
    {names : List Text} (hnames : ∀ name ∈ names, name.head? ≠ some slash)
    (hslot : p.sysroot = .ready fd) : (forEachEntry k f dirfd dir names p).Returns
      (Erases fd (SearchList.forEachOpened (fun c => g c ⟨.new,0⟩) k.root dir names) p) := by
  induction names generalizing p with
  | nil => exact Outcome.returns_pure ⟨hslot,rfl⟩
  | cons name names ih =>
    have hopen := openSysrootRdonly_dir hk .entry dirfd dir (hnames name List.mem_cons_self) hslot
    have hentry : ((openSysrootRdonly k .entry (.dir dirfd dir) name p).andTry fun file p =>
        f false file.1 file.2 ⟨.new,0⟩ p).Returns
          (Erases fd (openedAction g (k.root.openAt dir name)) p) := by
      refine hopen.andTry (fun e q hq => ⟨hq.1,?_⟩) fun file q hq => erases_read hf hq
      rw [finds_error hq,hq.2.1]
      rfl
    rw [forEachEntry,forEachOpened_cons]
    refine hentry.andTry (fun e q hq => hq.stops) fun _ q hq x hx => ?_
    exact hq.andThen (ih (fun n hn => hnames n (List.mem_cons_of_mem _ hn)) hq.1 x hx)

/-- The names come in pieces. -/
lemma listEntries_erases (hk : k.Regular) (hf : ErasesTo fd f g) (dirfd : Fd) {dir : Text}
    {names : List Text} (hlist : k.root.listing dir = .ok names) (suits : Text → Bool)
    (rounds off : ℕ) (hslot : p.sysroot = .ready fd) :
    (listEntries k f dirfd dir suits rounds off p).Returns (Erases fd
      (SearchList.forEachOpened (fun c => g c ⟨.new,0⟩) k.root dir ((names.drop off).filter suits))
      p) := by
  induction rounds generalizing off p with
  | zero => exact Outcome.returns_running p
  | succ rounds ih =>
    obtain ⟨n,hn⟩ := hk.dents p.calls
    have hdents : k.getdents p.calls dir off = .ok (slice names off (count names off 170 n)) := by
      rw [Kernel.getdents,hlist,hn]
      rfl
    have hlen := length_slice_count names off 170 n
    rw [listEntries,hdents]
    dsimp only
    rw [hlen]
    split_ifs with hzero
    · have hend : names.drop off = [] :=
        List.drop_eq_nil_of_le (count_eq_zero hzero (by decide))
      rw [hend]
      exact Outcome.returns_pure ⟨hslot,rfl⟩
    · have hsplit : names.drop off = slice names off (count names off 170 n)++
          names.drop (off+count names off 170 n) := by
        rw [slice,← List.drop_drop,List.take_append_drop]
      have hrelative : ∀ name ∈ (slice names off (count names off 170 n)).filter suits,
          name.head? ≠ some slash := by
        intro name hname
        have hmem : name ∈ names :=
          List.mem_of_mem_drop (List.mem_of_mem_take (List.mem_of_mem_filter hname))
        exact hk.relative dir names hlist name hmem
      rw [hsplit,List.filter_append,forEachOpened_append]
      refine (forEachEntry_erases hk hf dirfd dir hrelative (p := p.tick.answer (.listed none))
        hslot).andTry (fun e q hq => hq.stops) fun _ q hq x hx => ?_
      exact hq.andThen (ih _ hq.1 x hx)

lemma listEntries_refused (dirfd : Fd) {dir : Text} {e : Errno}
    (hlist : k.root.listing dir = .error e) (suits : Text → Bool) (rounds : ℕ)
    (hslot : p.sysroot = .ready fd) : (listEntries k f dirfd dir suits rounds 0 p).Returns
      (Erases fd (fun s => some (.error e,s)) p) := by
  cases rounds with
  | zero => exact Outcome.returns_running p
  | succ rounds =>
    have hdents : k.getdents p.calls dir 0 = .error e := by
      rw [Kernel.getdents,hlist]
    rw [listEntries,hdents]
    exact Outcome.returns_pure ⟨hslot,rfl⟩

lemma expandGlob_erases (hk : k.Regular) (hf : ErasesTo fd f g) (rounds : ℕ) (path : Text)
    (hslot : p.sysroot = .ready fd) : (expandGlob k rounds f path p).Returns
      (Erases fd (SearchList.expandGlob (fun c => g c ⟨.new,0⟩) k.root path) p) := by
  rw [expandGlob]
  refine (openSysrootRdonly_cwd hk .directory _ hslot).andTry (fun e q hq => ⟨hq.1,?_⟩)
    fun file q hq => ?_
  · rw [SearchList.expandGlob,finds_error hq,hq.2.1]
  · cases hlist : k.root.listing (rsplitOnce slash (splitOnce star path).1).1 with
    | error e =>
      refine (listEntries_refused file.1 hlist _ rounds hq.1).andThen fun x r hr => ?_
      refine Outcome.returns_pure ⟨hr.1,?_⟩
      rw [SearchList.expandGlob,finds_ok hq,hlist,← hq.2.1]
      exact hr.2
    | ok names =>
      refine (listEntries_erases hk hf file.1 hlist _ rounds 0 hq.1).andThen fun x r hr => ?_
      refine Outcome.returns_pure ⟨hr.1,?_⟩
      rw [SearchList.expandGlob,finds_ok hq,hlist,← hq.2.1]
      exact hr.2

lemma includePath_erases (hk : k.Regular) (hf : ErasesTo fd f g) (rounds : ℕ) (path : Text)
    (hslot : p.sysroot = .ready fd) : (includePath k rounds f path p).Returns
      (Erases fd (SearchList.includePath g k.root path) p) := by
  rw [includePath]
  refine (openSysrootRdonly_cwd hk _ path hslot).andThen fun r q hq => ?_
  cases r with
  | ok file =>
    intro x hx
    refine ⟨(erases_read hf hq x hx).1,?_⟩
    rw [SearchList.includePath,finds_ok hq,← hq.2.1]
    exact (hf false file.1 file.2 ⟨.new,0⟩ q hq.1 x hx).2
  | error e =>
    dsimp only
    split_ifs with hstar
    · intro x hx
      refine ⟨(expandGlob_erases hk hf rounds path hq.1 x hx).1,?_⟩
      rw [SearchList.includePath,finds_error hq,← hq.2.1]
      dsimp only
      rw [if_pos hstar]
      exact (expandGlob_erases hk hf rounds path hq.1 x hx).2
    · refine Outcome.returns_pure ⟨hq.1,?_⟩
      rw [SearchList.includePath,finds_error hq,hq.2.1]
      dsimp only
      rw [if_neg hstar]

lemma closeConfig_result (top : Bool) (own : Fd) (hslot : p.sysroot = .ready fd) :
    (closeConfig k top own p).Returns fun x q => q.sysroot = .ready fd ∧ q.cache = p.cache ∧
      x = (k.root.close p.cache.clock).elim (.ok ()) .error := by
  rw [closeConfig]
  cases k.root.close p.cache.clock with
  | some e | none => exact Outcome.returns_pure ⟨hslot,rfl,rfl⟩

/-- The list that `read_config_file` makes is the one it makes where no descriptor is counted. -/
theorem readConfigFile_erases (hk : k.Regular) (fd : Fd) (fuel : ℕ) :
    ErasesTo fd (readConfigFile k fuel) (SearchList.readConfigFile k.root fuel) := by
  induction fuel with
  | zero => exact fun _ _ _ _ p _ => Outcome.returns_running p
  | succ fuel ih =>
    intro top own c w p hslot
    rw [readConfigFile]
    rcases hline : SearchList.readLineStatic k.root c 256 fuel p.cache.clock [] w with
      _ | ⟨e | _ | line,w',t⟩
    · exact Outcome.returns_running p
    · refine Outcome.returns_pure ⟨hslot,?_⟩
      rw [SearchList.readConfigFile,hline]
      rfl
    · refine (closeConfig_result top own (p := p.atClock t) hslot).mono fun x q hq => ⟨hq.1,?_⟩
      rw [SearchList.readConfigFile,hline,hq.2.1,hq.2.2]
      change _ = some ((k.root.close t).elim _ _,_)
      cases hclose : k.root.close t with
      | none | some e =>
        dsimp only
        rw [hclose]
        rfl
    · have hstart : SearchList.readConfigFile k.root (fuel+1) c w p.cache = SearchList.handleLine
          (SearchList.readConfigFile k.root fuel) k.root c w' line (p.atClock t).cache := by
        rw [SearchList.readConfigFile,hline]
        rfl
      dsimp only
      split_ifs with hempty
      · refine (ih top own c w' (p.atClock t) hslot).mono fun x q hq => hq.congr ?_
        rw [hstart,SearchList.handleLine,if_pos hempty]
      · cases hstrip : SearchList.strip SearchList.includeWord
            (SearchList.trimAscii (splitOnce SearchList.hash line).1) with
        | none =>
          refine (ih top own c w' ((p.atClock t).append _) hslot).mono fun x q hq => hq.congr ?_
          rw [hstart,SearchList.handleLine,if_neg hempty,hstrip]
          rfl
        | some path =>
          have hnext : SearchList.readConfigFile k.root (fuel+1) c w p.cache = SearchList.andThen
              (SearchList.includePath (SearchList.readConfigFile k.root fuel) k.root path
                (p.atClock t).cache) (SearchList.readConfigFile k.root fuel c w') := by
            rw [hstart,SearchList.handleLine,if_neg hempty,hstrip]
            rfl
          refine (includePath_erases hk ih fuel path (p := p.atClock t) hslot).andTry
            (fun e q hq => hq.stops.congr hnext) fun _ q hq => ?_
          exact (ih top own c w' q hq.1).mono fun x r hr => (hq.andThen hr).congr hnext

/-- `init_cache_slow` gives the list that it gives where no descriptor is counted. -/
theorem initCacheSlow_erases (hk : k.Regular) (fuel : ℕ) (envName configPath : Text)
    (hslot : p.sysroot = .ready fd) (hclock : p.cache.clock = 0) :
    (initCacheSlow k fuel envName configPath p).Returns fun x _ =>
      SearchList.initCacheSlow k.root fuel (getEnv k.environ envName) configPath = some x := by
  rw [initCacheSlow]
  refine Outcome.Returns.andThen (openSysrootRdonly_cwd hk .config configPath hslot) fun r q hq => ?_
  have hcache := hq.2.1
  rw [hclock] at hcache
  dsimp only at hcache
  rw [SearchList.initCacheSlow]
  cases r with
  | error e =>
    refine Outcome.returns_pure ?_
    rw [finds_error hq,hcache]
  | ok file =>
    rw [finds_ok hq]
    refine (readConfigFile_erases hk fd fuel true file.1 file.2 ⟨.new,0⟩ q hq.1).andTry
      (fun e s hs => ?_) fun _ s hs => Outcome.returns_pure ?_
    · dsimp only
      rw [← hcache,hs.2]
    · dsimp only
      rw [← hcache,hs.2]

end Reading

end WinterLily.Lookup

namespace WinterLily.SearchList
open WinterLily.File WinterLily.Reader WinterLily.SplitAscii
open WinterLily.Lookup (Kernel Proc getEnv)

/-- The list that `init_cache_slow` makes with descriptors, the first time that it is called. -/
def Made (root : Sysroot) (fuel : ℕ) (env configPath list : Text) : Prop :=
  ∀ (k : Kernel) (envName : Text) (p : Proc), k.Regular → k.root = root →
    getEnv k.environ envName = some env → (∃ fd, p.sysroot = .ready fd) → p.cache.clock = 0 →
      (Lookup.initCacheSlow k fuel envName configPath p).Returns fun x _ => x = .ok list

lemma made_of_initCacheSlow {root : Sysroot} {fuel : ℕ} {env configPath list : Text}
    (h : initCacheSlow root fuel (some env) configPath = some (.ok list)) :
    Made root fuel env configPath list := by
  rintro k envName p hk rfl henv ⟨fd,hslot⟩ hclock
  refine (Lookup.initCacheSlow_erases hk fuel envName configPath hslot hclock).mono fun x _ hx => ?_
  rw [henv,h] at hx
  exact (Option.some.inj hx).symm

/-- The search list is what the environment and the configuration say. -/
theorem visited_eq_configured {root : Sysroot} {files : Set Text} {rank : Text → ℕ}
    (htree : ConfigTree root files rank) (hreads : root.Reads) {configPath c : Text}
    (hconfig : configPath ∈ files) (hopen : root.openRdonly configPath = .ok c) {env : Text}
    (henv : separator ∉ env) :
    (∃ ds, Dirs root (linesOf c) ds) ∧ ∀ ds, Dirs root (linesOf c) ds →
      ∃ bound, ∀ fuel ≥ bound, ∃ list,
        initCacheSlow root fuel (some env) configPath = some (.ok list) ∧
          visited list = withoutFinalEmpty (env.splitOn colon)++ds ∧
          Made root fuel env configPath list := by
  obtain ⟨hdirs,hlist⟩ := exists_configured htree hreads hconfig hopen henv
  refine ⟨hdirs,fun ds hds => ?_⟩
  obtain ⟨bound,hbound⟩ := hlist ds hds
  refine ⟨bound,fun fuel hfuel => ?_⟩
  obtain ⟨list,hrun,hvisited⟩ := hbound fuel hfuel
  exact ⟨list,hrun,hvisited,made_of_initCacheSlow hrun⟩

theorem visited_eq_configured_sample :
    (∃ ds, Dirs sampleRoot (linesOf (terminated newline outerLines)) ds) ∧
      ∀ ds, Dirs sampleRoot (linesOf (terminated newline outerLines)) ds →
        ∃ bound, ∀ fuel ≥ bound, ∃ list,
          initCacheSlow sampleRoot fuel (some [0x2F,0x78,0x3A]) [0x2F,0x63] = some (.ok list) ∧
            visited list = withoutFinalEmpty (([0x2F,0x78,0x3A] : Text).splitOn colon)++ds ∧
            Made sampleRoot fuel [0x2F,0x78,0x3A] [0x2F,0x63] list := by
  have houter : linesOf (terminated newline outerLines) = outerLines := by
    rw [linesOf_eq]
    exact segments_terminated (by decide)
  have hinner : linesOf (terminated newline innerLines) = innerLines := by
    rw [linesOf_eq]
    exact segments_terminated (by decide)
  have htree : ConfigTree sampleRoot {[0x2F,0x63],[0x2F,0x64]}
      (fun path => if path = [0x2F,0x63] then 1 else 0) := by
    refine ⟨?_⟩
    rintro path (rfl | rfl)
    · refine ⟨_,rfl,by decide,?_⟩
      rw [houter]
      have hlines : ∀ line ∈ outerLines, line.length ≤ 256 ∧ separator ∉ line ∧
          ∀ sub ∈ included line, sub = [0x2F,0x64] := by decide
      intro line hmem
      obtain ⟨hlen,hsep,hincl⟩ := hlines line hmem
      refine ⟨⟨hlen,hsep⟩,fun sub hsub => ?_⟩
      rw [hincl sub hsub]
      exact ⟨.inr rfl,by decide⟩
    · refine ⟨_,rfl,by decide,?_⟩
      rw [hinner]
      have hlines : ∀ line ∈ innerLines, line.length ≤ 256 ∧ separator ∉ line ∧
          included line = none := by decide
      intro line hmem
      obtain ⟨hlen,hsep,hnone⟩ := hlines line hmem
      refine ⟨⟨hlen,hsep⟩,fun sub hsub => ?_⟩
      rw [hnone] at hsub
      cases hsub
  have hreads : sampleRoot.Reads := ⟨fun _ => ⟨3,rfl⟩,fun _ => rfl⟩
  exact visited_eq_configured htree hreads (.inl rfl) rfl (by decide)

end WinterLily.SearchList
