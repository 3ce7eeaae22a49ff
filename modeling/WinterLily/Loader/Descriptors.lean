import WinterLily.Base.Resources
import WinterLily.Loader.OpenModule

/-! The descriptors that a lookup leaves open. Every early return of `read_config_file` leaves that
of its file, and `open_module` leaves those of the candidates that it rejects, so nothing is left
exactly if no answer of the kernel leads there. -/
namespace WinterLily.Lookup
open WinterLily.Effect WinterLily.File WinterLily.Reader WinterLily.Resources
open WinterLily.Resources.Holdings
open WinterLily.SearchList (Text slash visited)

section Holdings

/-- The descriptors that are open, and that of the sysroot. -/
def Proc.holdings (p : Proc) : Holdings Fd := ⟨{fd | fd ∈ p.fds},{fd | p.sysroot = .ready fd}⟩

/-- An answer that does not make the lookup leave a descriptor. The file of `init_cache_slow` is
closed whatever the close answers, but the error of another one makes the file that includes it
return. -/
def Answer.Harmless : Answer → Prop
  | .opened (.included pattern) err => pattern = true ∨ err = none
  | .opened .directory err => err = none
  | .opened .entry err => err = none
  | .line err => err = none
  | .listed err => err = none
  | .closed top err => top = true ∨ err = none
  | .header content complete =>
    complete = true ∧ content[4]? = some hostClass ∧ slice content 18 2 = hostMachine
  | .rewound err => err = none
  | _ => True

def Clean (es : List Answer) : Prop := ∀ a ∈ es, a.Harmless

lemma clean_append (es fs : List Answer) : Clean (es++fs) ↔ Clean es ∧ Clean fs :=
  List.forall_mem_append

lemma clean_singleton (a : Answer) : Clean [a] ↔ a.Harmless := List.forall_mem_singleton

lemma harmless_opened_none (why : Purpose) : (Answer.opened why none).Harmless := by
  cases why with
  | included pattern => exact .inr rfl
  | _ => first | rfl | trivial

variable {k : Kernel} {p q : Proc}

lemma holdings_opened (k : Kernel) (dir : At) (path : Text) (p : Proc) :
    Takes (p.next k) p.holdings (p.opened k dir path).holdings := by
  have hnew : p.next k ∉ p.fds := (k.fresh p.calls p.fds).2
  have howed : owed p.holdings (p.opened k dir path).holdings = p.holdings.held := owed_self _
  refine ⟨⟨fun _ h => h,fun _ h h' => absurd h h'⟩,?_,?_⟩
  · rw [howed]
    exact hnew
  · rw [howed]
    ext fd
    exact List.mem_cons

lemma holdings_closed (fd : Fd) (p : Proc) :
    (p.closed fd).holdings = p.holdings.release fd := by
  have hheld : (p.closed fd).holdings.held = p.holdings.held \ {fd} := by
    ext fd'
    change fd' ∈ (p.table.filter _).map Prod.fst ↔ fd' ∈ p.table.map Prod.fst ∧ fd' ≠ fd
    simp only [List.mem_map,List.mem_filter]
    constructor
    · rintro ⟨e,⟨he,hne⟩,rfl⟩
      exact ⟨⟨e,he,rfl⟩,of_decide_eq_true hne⟩
    · rintro ⟨⟨e,he,rfl⟩,hne⟩
      exact ⟨e,⟨he,decide_eq_true hne⟩,rfl⟩
  rw [release,← hheld]
  rfl

lemma holdings_moved (fd : Fd) (offset : ℕ) (p : Proc) : (p.moved fd offset).holdings = p.holdings := by
  have hfds : (p.moved fd offset).fds = p.fds := by
    rw [Proc.fds,Proc.moved,Proc.fds,List.map_map]
    refine List.map_congr_left fun e _ => ?_
    by_cases h : e.1 = fd
    · simp [h]
    · simp [h]
  rw [Proc.holdings,hfds]
  rfl

/-- The sysroot that a lookup opens on its way is kept. -/
lemma Reaches.tries {dir at' : At} {st path : Text} (hq : Reaches k dir st p at' path q) :
    Tries True p.holdings q.holdings := by
  cases hq with
  | relative _ => exact Tries.refl True _
  | known _ _ => exact Tries.refl True _
  | @opened rest path hst hslot hfault =>
    have hheld : p.next k ∉ p.holdings.held := (k.fresh p.calls p.fds).2
    have hkept : p.holdings.kept = ∅ := by
      ext fd
      simp [Proc.holdings,hslot.1]
    have hkeep := tries_keep hheld (by rw [hkept]; exact Set.notMem_empty _)
    have heq : Holdings.mk (insert (p.next k) p.holdings.held) (insert (p.next k) p.holdings.kept) =
        Proc.holdings { (p.use (.path st)).opened k .cwd path with
          sysroot := .ready (p.next k) } := by
      rw [hkept]
      refine congrArg₂ Holdings.mk ?_ ?_
      · ext fd
        exact List.mem_cons.symm
      · ext fd
        simp [eq_comm]
    exact heq ▸ hkeep

/-- What opening a file does to the descriptors. -/
def Opens (why : Purpose) (p : Proc) (r : Except Errno (Fd × Text)) (q : Proc) : Prop :=
  ∃ es, q.answers = p.answers++es ∧ (Clean es ↔ (Answer.opened why (errorOf r)).Harmless) ∧
    (∀ e, r = .error e → Tries True p.holdings q.holdings) ∧
    ∀ file, r = .ok file → Takes file.1 p.holdings q.holdings

lemma Reaches.answers {dir at' : At} {st path : Text} (hq : Reaches k dir st p at' path q) :
    q.answers = p.answers := by
  cases hq <;> rfl

lemma openSysrootRdonly_opens (k : Kernel) (why : Purpose) (dir : At) (st : Text) (p : Proc) :
    (openSysrootRdonly k why dir st p).Returns (Opens why p) := by
  have hout := openSysrootRdonly_outcome k why dir st p
  generalize openSysrootRdonly k why dir st p = o at hout ⊢
  cases hout with
  | long | stopped => exact Outcome.returns_panic _
  | @unopenable e _ _ hslot _ =>
    have heq : p.holdings = Proc.holdings (Proc.answer (.opened why (some e))
        { p.use (.path st) with sysroot := .poisoned }) := by
      refine congrArg₂ Holdings.mk rfl ?_
      ext fd
      simp [hslot.1,Proc.answer]
    refine Outcome.returns_pure ⟨[.opened why (some e)],rfl,clean_singleton _,fun _ _ => ?_,?_⟩
    · exact heq ▸ Tries.refl True p.holdings
    · simp
  | @refused at' path q e _ hq _ =>
    refine Outcome.returns_pure ⟨[.openat at' path,.opened why (some e)],?_,?_,?_,?_⟩
    · simp [Proc.answer,Proc.tick,hq.answers]
    · simp [Clean,Answer.Harmless,errorOf]
    · exact fun _ _ => hq.tries
    · simp
  | @found at' path q c _ hq _ =>
    refine Outcome.returns_pure ⟨[.openat at' path,.opened why none],?_,?_,?_,?_⟩
    · simp [Proc.answer,Proc.opened,hq.answers]
    · simp [Clean,Answer.Harmless,errorOf]
    · simp
    · rintro file hfile
      cases hfile
      exact hq.tries.takes (holdings_opened k at' path q)

end Holdings

section Config

variable {k : Kernel} {p q r : Proc} {x : Except Errno Unit} {f : ReadFile} {why : Purpose}

/-- An include is harmless exactly if it succeeds, and then leaves nothing. -/
def Included (p : Proc) (x : Except Errno Unit) (q : Proc) : Prop :=
  ∃ es, q.answers = p.answers++es ∧ (Clean es ↔ x = .ok ()) ∧
    Tries (x = .ok ()) p.holdings q.holdings

/-- The descriptor of a configuration file is closed if the answers are harmless; otherwise that of
the first file is left. The success of an included file says which is the case. -/
def ReadThrough (top : Bool) (fd : Fd) (p : Proc) (x : Except Errno Unit) (q : Proc) : Prop :=
  ∃ es, q.answers = p.answers++es ∧ (top = false → (Clean es ↔ x = .ok ())) ∧
    Uses fd (Clean es) (top = true) p.holdings q.holdings

/-- A reader that does this to the descriptor it is given. -/
def Closes (f : ReadFile) : Prop :=
  ∀ top fd c w p, fd ∈ p.fds → (f top fd c w p).Returns (ReadThrough top fd p)

lemma Included.trans (h : Included p (.ok ()) q) (h' : Included q x r) : Included p x r := by
  obtain ⟨es,hes,hclean,htries⟩ := h
  obtain ⟨fs,hfs,hclean',htries'⟩ := h'
  have hok : Clean es := hclean.mpr rfl
  have htries : Tries True p.holdings q.holdings := ⟨htries.toGrows,htries.owed_subset,
    fun _ => htries.held_eq rfl⟩
  refine ⟨es++fs,?_,?_,htries.trans htries'⟩
  · rw [hfs,hes,List.append_assoc]
  · rw [clean_append,and_iff_right hok,hclean']

/-- An answer that changes no descriptor. -/
lemma included_answer {a : Answer} (hq : q.holdings = p.holdings) (ha : q.answers = p.answers++[a])
    (hx : a.Harmless ↔ x = .ok ()) : Included p x q :=
  ⟨[a],ha,(clean_singleton a).trans hx,hq ▸ Tries.refl _ _⟩

lemma included_of_error {e : Errno} (h : Opens why p (.error e) q)
    (hwhy : ¬ (Answer.opened why (some e)).Harmless) : Included p (.error e) q := by
  obtain ⟨es,hes,hclean,htries,-⟩ := h
  exact ⟨es,hes,iff_of_false (fun hc => hwhy (hclean.mp hc)) (by simp),(htries e rfl).mono⟩

/-- A file that is opened and read. -/
lemma included_of_read {file : Fd × Text} (h : Opens why p (.ok file) q)
    (h' : ReadThrough false file.1 q x r) : Included p x r := by
  obtain ⟨es,hes,hclean,-,htakes⟩ := h
  obtain ⟨fs,hfs,hclean',huses⟩ := h'
  have hok : Clean es := hclean.mpr (harmless_opened_none why)
  have hiff := hclean' rfl
  refine ⟨es++fs,?_,?_,?_⟩
  · rw [hfs,hes,List.append_assoc]
  · rw [clean_append,and_iff_right hok,hiff]
  · rw [hiff] at huses
    exact (htakes file rfl).tries huses

lemma mem_fds_of_takes {fd : Fd} (h : Takes fd p.holdings q.holdings) : fd ∈ q.fds := by
  have hmem : fd ∈ q.holdings.held := h.held_eq ▸ Set.mem_insert fd _
  exact hmem

lemma Opens.mem_fds {file : Fd × Text} (h : Opens why p (.ok file) q) : file.1 ∈ q.fds := by
  obtain ⟨es,-,-,-,htakes⟩ := h
  exact mem_fds_of_takes (htakes file rfl)

lemma forEachEntry_included (hf : Closes f) (dirfd : Fd) (dir : Text) (names : List Text) (p : Proc) :
    (forEachEntry k f dirfd dir names p).Returns (Included p) := by
  induction names generalizing p with
  | nil => exact Outcome.returns_pure ⟨[],(List.append_nil _).symm,by simp [Clean],Tries.refl _ _⟩
  | cons name names ih =>
    have hentry : ((openSysrootRdonly k .entry (.dir dirfd dir) name p).andTry fun file p =>
        f false file.1 file.2 ⟨.new,0⟩ p).Returns (Included p) := by
      refine (openSysrootRdonly_opens k .entry (.dir dirfd dir) name p).andTry ?_ ?_
      · intro e q hopen
        exact included_of_error hopen (Option.some_ne_none e)
      · intro file q hopen y hy
        exact included_of_read hopen (hf false file.1 file.2 ⟨.new,0⟩ q hopen.mem_fds y hy)
    rw [forEachEntry]
    refine hentry.andTry (fun e q h => h) fun _ q hq y hy => ?_
    exact hq.trans (ih q y hy)

lemma listEntries_included (hf : Closes f) (dirfd : Fd) (dir : Text) (suits : Text → Bool)
    (rounds off : ℕ) (p : Proc) :
    (listEntries k f dirfd dir suits rounds off p).Returns (Included p) := by
  induction rounds generalizing off p with
  | zero => exact Outcome.returns_running p
  | succ rounds ih =>
    rw [listEntries]
    split
    · refine Outcome.returns_pure (included_answer rfl rfl ?_)
      exact iff_of_false (Option.some_ne_none _) (by simp)
    · have hlisted : Included p (.ok ()) (p.tick.answer (.listed none)) :=
        included_answer rfl rfl (iff_of_true rfl rfl)
      split_ifs
      · exact Outcome.returns_pure hlisted
      · refine (forEachEntry_included hf dirfd dir _ _).andTry (fun e q h => hlisted.trans h) ?_
        intro _ q hq y hy
        exact hlisted.trans (hq.trans (ih _ q y hy))

lemma expandGlob_included (hf : Closes f) (rounds : ℕ) (path : Text) (p : Proc) :
    (expandGlob k rounds f path p).Returns (Included p) := by
  rw [expandGlob]
  refine (openSysrootRdonly_opens k .directory .cwd _ p).andTry ?_ ?_
  · intro e q hopen
    exact included_of_error hopen (Option.some_ne_none e)
  · intro file q hopen
    refine (listEntries_included hf file.1 _ _ rounds 0 q).andThen fun y r hr => ?_
    obtain ⟨es,hes,hclean,-,htakes⟩ := hopen
    obtain ⟨fs,hfs,hclean',htries⟩ := hr
    have hok : Clean es := hclean.mpr (harmless_opened_none .directory)
    refine Outcome.returns_pure ⟨es++fs,?_,?_,?_⟩
    · change r.answers = _
      rw [hfs,hes,List.append_assoc]
    · rw [clean_append,and_iff_right hok,hclean']
    · rw [holdings_closed]
      exact (htakes file rfl).release htries

lemma includePath_included (hf : Closes f) (rounds : ℕ) (path : Text) (p : Proc) :
    (includePath k rounds f path p).Returns (Included p) := by
  rw [includePath]
  refine (openSysrootRdonly_opens k _ .cwd path p).andThen fun y q hopen => ?_
  cases y with
  | ok file =>
    exact fun y hy => included_of_read hopen (hf false file.1 file.2 ⟨.new,0⟩ q hopen.mem_fds y hy)
  | error e =>
    dsimp only
    split_ifs with hpattern
    · -- the error of a pattern is answered by the glob
      obtain ⟨es,hes,hclean,htries,-⟩ := hopen
      have hok : Included p (.ok ()) q :=
        ⟨es,hes,iff_of_true (hclean.mpr (.inl hpattern)) rfl,(htries e rfl).mono⟩
      exact fun y hy => hok.trans (expandGlob_included hf rounds path q y hy)
    · refine Outcome.returns_pure (included_of_error hopen ?_)
      rintro (h | h)
      · exact hpattern h
      · cases h

lemma uses_release {fd : Fd} {c matters : Prop} (hc : ¬ c → ¬ matters) :
    Uses fd c matters p.holdings (p.holdings.release fd) := by
  have howed : owed p.holdings (p.holdings.release fd) = p.holdings.held := owed_self p.holdings
  refine ⟨⟨fun _ h => h,fun _ h h' => absurd h h'⟩,?_,fun _ => ?_,fun h h' => absurd h' (hc h)⟩
  · rw [howed]
    rfl
  · rw [howed]
    rfl

lemma closeConfig_readThrough (k : Kernel) (top : Bool) (fd : Fd) (p : Proc) :
    (closeConfig k top fd p).Returns (ReadThrough top fd p) := by
  have hclosed : ∀ err, Uses fd (Clean [.closed top err]) (top = true) p.holdings
      ((p.closed fd).answer (.closed top err)).holdings := by
    intro err
    change Uses fd _ _ p.holdings (p.closed fd).holdings
    rw [holdings_closed]
    exact uses_release fun hc htop => hc ((clean_singleton _).mpr (.inl htop))
  rw [closeConfig]
  split
  · refine Outcome.returns_pure ⟨_,rfl,fun htop => ?_,hclosed _⟩
    rw [clean_singleton,Answer.Harmless,htop]
    simp
  · refine Outcome.returns_pure ⟨_,rfl,fun htop => ?_,hclosed _⟩
    rw [clean_singleton,Answer.Harmless]
    simp

/-- A failed include makes the file that has it return. -/
lemma Included.fails {top : Bool} {fd : Fd} {e : Errno} (h : Included p (.error e) q)
    (hfd : fd ∈ p.fds) : ReadThrough top fd p (.error e) q := by
  obtain ⟨es,hes,hclean,htries⟩ := h
  refine ⟨es,hes,fun _ => hclean,?_⟩
  have hfalse : ¬ Clean es := fun hc => by cases hclean.mp hc
  rw [eq_false hfalse]
  have htries : Tries False p.holdings q.holdings := ⟨htries.toGrows,htries.owed_subset,False.elim⟩
  exact htries.fails hfd

lemma Included.readThrough {top : Bool} {fd : Fd} (h : Included p (.ok ()) q)
    (h' : ReadThrough top fd q x r) : ReadThrough top fd p x r := by
  obtain ⟨es,hes,hclean,htries⟩ := h
  obtain ⟨fs,hfs,hclean',huses⟩ := h'
  have hok : Clean es := hclean.mpr rfl
  have hiff : Clean (es++fs) ↔ Clean fs := by rw [clean_append,and_iff_right hok]
  have htries : Tries True p.holdings q.holdings := ⟨htries.toGrows,htries.owed_subset,
    fun _ => htries.held_eq rfl⟩
  refine ⟨es++fs,?_,fun htop => hiff.trans (hclean' htop),?_⟩
  · rw [hfs,hes,List.append_assoc]
  · rw [hiff]
    exact htries.uses huses

lemma Included.mem_fds {fd : Fd} (h : Included p x q) (hfd : fd ∈ p.fds) : fd ∈ q.fds := by
  obtain ⟨es,-,-,htries⟩ := h
  exact htries.held_subset hfd

lemma readConfigFile_closes (k : Kernel) (fuel : ℕ) : Closes (readConfigFile k fuel) := by
  induction fuel with
  | zero => exact fun _ _ _ _ p _ => Outcome.returns_running p
  | succ fuel ih =>
    intro top fd c w p hfd
    rw [readConfigFile]
    split
    · exact Outcome.returns_running p
    · rename_i e _ t _
      refine Outcome.returns_pure (Included.fails ?_ hfd)
      exact included_answer rfl rfl (iff_of_false (Option.some_ne_none e) (by simp))
    · exact closeConfig_readThrough k top fd _
    · dsimp only
      split_ifs
      · exact ih top fd c _ _ hfd
      · split
        · refine (includePath_included ih fuel _ _).andTry (fun e q hq => ?_) fun _ q hq y hy => ?_
          · exact hq.fails hfd
          · exact hq.readThrough (ih top fd c _ q (hq.mem_fds hfd) y hy)
        · exact ih top fd c _ _ hfd

end Config

section Module

variable {k : Kernel} {p q r : Proc}

/-- Descriptors are left over exactly if an answer is not harmless. -/
def Accounted (ret : Set Fd) (p q : Proc) : Prop :=
  ∃ es, q.answers = p.answers++es ∧ Pays ret (Clean es) p.holdings q.holdings

lemma Accounted.trans {ret : Set Fd} (h : Accounted ∅ p q) (h' : Accounted ret q r) :
    Accounted ret p r := by
  obtain ⟨es,hes,hpays⟩ := h
  obtain ⟨fs,hfs,hpays'⟩ := h'
  refine ⟨es++fs,?_,?_⟩
  · rw [hfs,hes,List.append_assoc]
  · rw [clean_append]
    exact hpays.trans hpays'

lemma Accounted.refl (p : Proc) : Accounted ∅ p p := by
  have hclean : Clean [] ↔ True := by simp [Clean]
  refine ⟨[],(List.append_nil _).symm,?_⟩
  rw [hclean]
  exact (Tries.refl True _).pays

/-- A file that could not be opened leaves nothing. -/
lemma accounted_of_error {why : Purpose} {e : Errno} (h : Opens why p (.error e) q)
    (hwhy : (Answer.opened why (some e)).Harmless) : Accounted ∅ p q := by
  obtain ⟨es,hes,hclean,htries,-⟩ := h
  refine ⟨es,hes,?_⟩
  rw [eq_true (hclean.mpr hwhy)]
  exact (htries e rfl).pays

/-- The first configuration file, opened and read. -/
lemma accounted_of_read {why : Purpose} {file : Fd × Text} {x : Except Errno Unit}
    (h : Opens why p (.ok file) q) (h' : ReadThrough true file.1 q x r) : Accounted ∅ p r := by
  obtain ⟨es,hes,hclean,-,htakes⟩ := h
  obtain ⟨fs,hfs,-,huses⟩ := h'
  have hok : Clean es := hclean.mpr (harmless_opened_none why)
  refine ⟨es++fs,?_,?_⟩
  · rw [hfs,hes,List.append_assoc]
  · rw [clean_append,and_iff_right hok]
    rw [eq_self] at huses
    exact (htakes file rfl).pays huses

lemma initCacheSlow_accounted (k : Kernel) (fuel : ℕ) (envName configPath : Text) (p : Proc) :
    (initCacheSlow k fuel envName configPath p).Returns fun _ q => Accounted ∅ p q := by
  rw [initCacheSlow]
  refine (openSysrootRdonly_opens k .config .cwd configPath _).andThen fun y q hopen => ?_
  cases y with
  | ok file =>
    refine (readConfigFile_closes k fuel true file.1 file.2 ⟨.new,0⟩ q hopen.mem_fds).andTry
      (fun e r hr => ?_) fun _ r hr => ?_
    · exact accounted_of_read hopen hr
    · exact Outcome.returns_pure (accounted_of_read hopen hr)
  | error e => exact Outcome.returns_pure (accounted_of_error hopen trivial)

lemma searchList_accounted (k : Kernel) (fuel : ℕ) (search : SearchType) (p : Proc) :
    (searchList k fuel search p).Returns fun _ q => Accounted ∅ p q := by
  rw [searchList,getOrTryInit]
  split
  · exact Outcome.returns_pure (Accounted.refl p)
  · exact Outcome.returns_panic _
  · refine (initCacheSlow_accounted k fuel _ _ _).andThen fun y q hq => ?_
    cases y with
    | ok list => exact Outcome.returns_pure hq
    | error e => exact Outcome.returns_pure hq

/-- Whether the header of a file was read and suits, and whether the file is at its start again. -/
def Probed (p : Proc) (verdict : Verdict) (q : Proc) : Prop :=
  ∃ es, q.answers = p.answers++es ∧ q.holdings = p.holdings ∧ (Clean es ↔ verdict = .accepted)

lemma rewind_probed (k : Kernel) (fd : Fd) (c : Text) (w : World) (p : Proc) :
    (rewind k fd c w p).Returns (Probed p) := by
  rw [rewind]
  split
  · refine Outcome.returns_pure ⟨_,rfl,rfl,?_⟩
    rw [clean_singleton]
    exact iff_of_false (Option.some_ne_none _) (by simp)
  · refine Outcome.returns_pure ⟨_,rfl,holdings_moved fd _ p.tick,?_⟩
    rw [clean_singleton]
    exact iff_of_true rfl rfl

lemma probed_header {fd : Fd} {offset : ℕ} {c : Text} {complete : Bool}
    (hq : q = (r.moved fd offset).answer (.header c complete)) (hr : r.holdings = p.holdings)
    (ha : r.answers = p.answers) (hc : ¬ (Answer.header c complete).Harmless) :
    Probed p .rejected q := by
  subst hq
  refine ⟨[.header c complete],?_,(holdings_moved fd offset r).trans hr,?_⟩
  · exact congrArg (·++_) ha
  · rw [clean_singleton]
    exact iff_of_false hc (by simp)

lemma readExact_ok {c bs : Text} {w v : World} {replies : List (Reply Errno)} {n : ℕ}
    (hw : w.Valid c) (h : readExact c replies n [] w = some (.ok bs,v)) :
    bs = slice c w.position n ∧ v.Valid c ∧ v.position = w.position+n := by
  obtain ⟨hv,⟨-,hx,-,hpos⟩ | ⟨-,⟨e,hx⟩,-⟩⟩ := readExact_spec hw h
  · exact ⟨Except.ok.inj hx,hv,hpos⟩
  · cases hx

lemma probe_probed (k : Kernel) (fd : Fd) (c : Text) (p : Proc) :
    (probe k fd c p).Returns (Probed p) := by
  rw [probe]
  split
  · exact Outcome.returns_running p
  · exact Outcome.returns_pure (probed_header rfl rfl rfl fun h => Bool.false_ne_true h.1)
  · rename_i ident w hident
    obtain ⟨rfl,hw,hpos⟩ := readExact_ok (valid_new c 0) hident
    have hhead : (slice c (World.position ⟨.new,0⟩) 16)[4]? = _ := head_slice c
    rw [hhead]
    split_ifs with hclass
    · exact Outcome.returns_pure (probed_header rfl rfl rfl fun h => hclass h.2.1)
    split
    · exact Outcome.returns_running p.tick
    · exact Outcome.returns_pure (probed_header (r := p.tick.tick) rfl rfl rfl fun h => Bool.false_ne_true h.1)
    · rename_i rest v hrest
      obtain ⟨rfl,-,-⟩ := readExact_ok hw hrest
      have hmachine : slice (slice c (World.position ⟨.new,0⟩) 16++slice c w.position 48) 18 2 =
          slice c 18 2 := by
        rw [hpos]
        exact machine_slice c
      rw [hmachine]
      split_ifs with hsuits
      · exact Outcome.returns_pure (probed_header (r := p.tick.tick) rfl rfl rfl
          fun h => hsuits h.2.2)
      · have hharmless : (Answer.header c true).Harmless :=
          ⟨rfl,not_not.mp hclass,not_not.mp hsuits⟩
        intro verdict hverdict
        obtain ⟨es,hes,hsame,hclean⟩ := rewind_probed k fd c v _ verdict hverdict
        refine ⟨.header c true::es,?_,hsame.trans (holdings_moved fd _ p.tick.tick),?_⟩
        · rw [hes]
          simp [Proc.answer,Proc.moved,Proc.tick]
        · rw [← hclean,Clean,List.forall_mem_cons,and_iff_right hharmless]
          rfl

/-- The descriptor that a call returns. -/
def returned (x : Except Errno Fd) : Set Fd := {fd | x = .ok fd}

lemma returned_error (e : Errno) : returned (.error e) = ∅ := by
  ext fd
  simp [returned]

lemma returned_ok (fd : Fd) : returned (.ok fd) = {fd} := by
  ext fd'
  simp [returned,eq_comm]

/-- A candidate that is opened and not returned. -/
lemma accounted_of_rejected {file : Fd × Text} {verdict : Verdict}
    (h : Opens .candidate p (.ok file) q) (h' : Probed q verdict r) (hv : verdict ≠ .accepted) :
    Accounted ∅ p r := by
  obtain ⟨es,hes,-,-,htakes⟩ := h
  obtain ⟨fs,hfs,hsame,hclean⟩ := h'
  refine ⟨es++fs,?_,?_⟩
  · rw [hfs,hes,List.append_assoc]
  · have hfalse : ¬ Clean (es++fs) := fun hc => hv (hclean.mp ((clean_append es fs).mp hc).2)
    rw [eq_false hfalse,hsame]
    exact (htakes file rfl).leaks

lemma accounted_of_accepted {file : Fd × Text} (h : Opens .candidate p (.ok file) q)
    (h' : Probed q .accepted r) : Accounted (returned (.ok file.1)) p r := by
  obtain ⟨es,hes,hclean,-,htakes⟩ := h
  obtain ⟨fs,hfs,hsame,hclean'⟩ := h'
  refine ⟨es++fs,?_,?_⟩
  · rw [hfs,hes,List.append_assoc]
  · have hok : Clean (es++fs) :=
      (clean_append es fs).mpr ⟨hclean.mpr trivial,hclean'.mpr rfl⟩
    rw [eq_true hok,hsame,returned_ok]
    exact (htakes file rfl).hands

lemma tryCandidates_accounted (k : Kernel) (soname : Text) (dirs : List Text) (p : Proc) :
    (tryCandidates k soname dirs p).Returns fun x q => Accounted (returned x) p q := by
  induction dirs generalizing p with
  | nil =>
    refine Outcome.returns_pure ?_
    rw [returned_error]
    exact Accounted.refl p
  | cons dir dirs ih =>
    rw [tryCandidates]
    cases candidatePath 4096 dir soname with
    | none => exact Outcome.returns_panic _
    | some fname =>
      rw [tryCandidate]
      refine (openSysrootRdonly_opens k .candidate .cwd fname _).andThen fun y q hopen => ?_
      cases y with
      | error e =>
        have hskip := accounted_of_error hopen trivial
        rw [judge]
        split_ifs
        · exact fun x hx => hskip.trans (ih q x hx)
        · refine Outcome.returns_pure ?_
          rw [returned_error]
          exact hskip
      | ok file =>
        rw [judge]
        refine (probe_probed k file.1 file.2 q).andThen fun verdict r hr => ?_
        cases verdict with
        | rejected => exact fun x hx => (accounted_of_rejected hopen hr (by simp)).trans (ih r x hx)
        | failed e =>
          refine Outcome.returns_pure ?_
          rw [returned_error]
          exact accounted_of_rejected hopen hr (by simp)
        | accepted => exact Outcome.returns_pure (accounted_of_accepted hopen hr)

section Suitable

variable {P Q : Prop} {fs : Text → Except Errno Text} {st : Text} {paths : List Text}

/-- What the harmlessness of the answers between two states comes to. -/
def Answered (P : Prop) (p q : Proc) : Prop := ∃ es, q.answers = p.answers++es ∧ (Clean es ↔ P)

lemma Answered.congr (h : Answered P p q) (hPQ : P ↔ Q) : Answered Q p q := by
  obtain ⟨es,hes,hclean⟩ := h
  exact ⟨es,hes,hclean.trans hPQ⟩

lemma Answered.trans (h : Answered P p q) (h' : Answered Q q r) : Answered (P ∧ Q) p r := by
  obtain ⟨es,hes,hclean⟩ := h
  obtain ⟨gs,hgs,hclean'⟩ := h'
  refine ⟨es++gs,?_,?_⟩
  · rw [hgs,hes,List.append_assoc]
  · rw [clean_append,hclean,hclean']

lemma Opens.answered {x : Except Errno (Fd × Text)} (h : Opens .candidate p x q) :
    Answered True p q := by
  obtain ⟨es,hes,hclean,-⟩ := h
  exact ⟨es,hes,hclean.trans (iff_of_true trivial trivial)⟩

lemma Probed.answered {verdict : Verdict} (h : Probed p verdict q) :
    Answered (verdict = .accepted) p q := by
  obtain ⟨es,hes,-,hclean⟩ := h
  exact ⟨es,hes,hclean⟩

/-- A suitable file stands there, or none. -/
def Suits (fs : Text → Except Errno Text) (path : Text) : Prop := ∀ c, fs path = .ok c → Suitable c

lemma suits_of_error {e : Errno} (h : fs st = .error e) : Suits fs st := by
  intro c hc
  cases h.symm.trans hc

lemma suits_of_ok {c : Text} (h : fs st = .ok c) : Suits fs st ↔ Suitable c := by
  constructor
  · exact fun hsuits => hsuits c h
  · intro hc c' h'
    cases h.symm.trans h'
    exact hc

/-- A round that ends the loop. -/
lemma Answered.last (h : Answered (Suits fs st) p q) : Answered (∀ path ∈ [st], Suits fs path) p q :=
  h.congr List.forall_mem_singleton.symm

/-- A round and those after it. -/
lemma Answered.cons (h : Answered (Suits fs st) p q)
    (h' : Answered (∀ path ∈ paths, Suits fs path) q r) :
    Answered (∀ path ∈ st::paths, Suits fs path) p r :=
  (h.trans h').congr List.forall_mem_cons.symm

/-- What the header of a file says is whether it suits. -/
lemma probe_answered (hk : k.Steady) (fd : Fd) {c : Text} (h : Answered True p q)
    (hst : fs st = .ok c) : ∃ q' verdict, probe k fd c q = .pure verdict q' ∧ SameLookup q q' ∧
      Answered (Suits fs st) p q' ∧
      verdict = if Suitable c then .accepted else .rejected := by
  obtain ⟨q',hsame,⟨hsuits,hprobe,-⟩ | ⟨hsuits,hprobe⟩⟩ := probe_steady hk fd c q
  · have hprobed := ((probe_probed k fd c q).of_eq hprobe).answered
    refine ⟨q',_,hprobe,hsame,(h.trans hprobed).congr ?_,(if_pos hsuits).symm⟩
    exact iff_of_true ⟨trivial,rfl⟩ ((suits_of_ok hst).mpr hsuits)
  · have hprobed := ((probe_probed k fd c q).of_eq hprobe).answered
    refine ⟨q',_,hprobe,hsame,(h.trans hprobed).congr ?_,(if_neg hsuits).symm⟩
    exact iff_of_false (by simp) fun h' => hsuits ((suits_of_ok hst).mp h')

/-- A round and the rounds after it, if these answer as they should. -/
lemma judge_answered (hk : k.Steady) {x : Except Errno (Fd × Text)} (hlooked : Looked k st p x q)
    (hopens : Opens .candidate p x q) (hfs : SlotAgrees k p.sysroot fs) (hnul : nul ∉ st)
    {next : Proc → Act (Except Errno Fd)}
    (hnext : ∀ p : Proc, SlotAgrees k p.sysroot fs →
      (next p).Returns fun _ q => Answered (∀ path ∈ (choose fs paths).1, Suits fs path) p q) :
    (judge k next x q).Returns fun _ r =>
      Answered (∀ path ∈ (choose fs (st::paths)).1, Suits fs path) p r := by
  have hst := hlooked.eq hfs hnul
  have hagrees := hlooked.agrees fs hfs
  have hopened := hopens.answered
  cases x with
  | error e =>
    have hround := hopened.congr (iff_of_true trivial (suits_of_error hst))
    rw [judge,choose_of_error hst]
    split_ifs
    · exact (hnext q hagrees).mono fun _ _ ht => hround.cons ht
    · exact Outcome.returns_pure hround.last
  | ok file =>
    obtain ⟨fd,c⟩ := file
    obtain ⟨q',verdict,hprobe,hsame,hround,rfl⟩ := probe_answered hk fd hopened hst
    rw [judge,hprobe,Outcome.pure_andThen,choose_of_ok hst]
    split_ifs
    · exact Outcome.returns_pure hround.last
    · exact (hnext q' (hsame.sysroot ▸ hagrees)).mono fun _ _ ht => hround.cons ht

/-- On files that stay as they are, the answers are harmless exactly if each of the paths that are
opened is that of a suitable file or of none. -/
lemma tryCandidates_answered (hk : k.Steady) (soname : Text) (fs : Text → Except Errno Text)
    (dirs : List Text)
    (hpath : ∀ dir ∈ dirs, (dir++slash::soname).length < 256 ∧ nul ∉ dir++slash::soname) (p : Proc)
    (hfs : SlotAgrees k p.sysroot fs) : (tryCandidates k soname dirs p).Returns fun _ q =>
      Answered (∀ path ∈ (choose fs (dirs.map (·++slash::soname))).1, Suits fs path) p q := by
  induction dirs generalizing p with
  | nil => exact Outcome.returns_pure ⟨[],(List.append_nil _).symm,by simp [Clean,choose]⟩
  | cons dir dirs ih =>
    obtain ⟨hlen,hnul⟩ := hpath dir (List.mem_cons_self ..)
    have hnext := ih fun d hd => hpath d (List.mem_cons_of_mem _ hd)
    rw [tryCandidates,candidatePath_eq,if_pos (by omega),tryCandidate,List.map_cons]
    set st := dir++slash::soname
    set p₀ := p.use (.slice 4095 st (some st))
    have hopens := openSysrootRdonly_opens k .candidate .cwd st p₀
    rcases openSysrootRdonly_looked hk .candidate hlen p₀ with ⟨hopen,-,-⟩ | ⟨x,q,hopen,hlooked⟩
    · rw [hopen,Outcome.panic_andThen]
      exact Outcome.returns_panic _
    · have hopened := hopens.of_eq hopen
      rw [hopen,Outcome.pure_andThen]
      exact judge_answered hk hlooked hopened hfs hnul hnext

end Suitable

lemma openModule_accounted (k : Kernel) (fuel : ℕ) (search : SearchType) (soname : Text) (p : Proc) :
    (openModule k fuel search soname p).Returns fun x q => Accounted (returned x) p q := by
  rw [openModule]
  refine (searchList_accounted k fuel search p).andTry (fun e q hq => ?_) fun list q hq x hx => ?_
  · rw [returned_error]
    exact hq
  · exact hq.trans (tryCandidates_accounted k soname _ q x hx)

/-- The descriptors open after the call are those before it, the one returned, and that of the
sysroot when it has been opened. -/
def NoneLeft (p : Proc) (x : Except Errno Fd) (q : Proc) : Prop :=
  ∀ fd, fd ∈ q.fds ↔ fd ∈ p.fds ∨ (q.sysroot = .ready fd ∧ p.sysroot ≠ .ready fd) ∨ x = .ok fd

lemma openModule_leaves_none_iff {k : Kernel} {fuel : ℕ} {search : SearchType} {soname : Text}
    {p : Proc} {x : Except Errno Fd}
    (h : (openModule k fuel search soname p.unlogged).result = .value x) :
    NoneLeft p x (openModule k fuel search soname p.unlogged).state ↔
      ∀ a ∈ (openModule k fuel search soname p.unlogged).state.answers, a.Harmless := by
  obtain ⟨es,hes,hpays⟩ := openModule_accounted k fuel search soname p.unlogged x h
  have hes : (openModule k fuel search soname p.unlogged).state.answers = es := hes
  have hiff := hpays.held_eq_iff
  rw [hes]
  refine Iff.trans ?_ hiff.symm
  rw [Set.ext_iff]
  refine forall_congr' fun fd => ?_
  change (_ ↔ _ ∨ _ ∨ _) ↔ (_ ↔ (_ ∨ _) ∨ _)
  rw [or_assoc]
  rfl

/-- A call of `open_module` that returns leaves no descriptor exactly if every answer of the kernel
is harmless; with a search list that is there already and files that stay as they are, exactly if each
of the paths that it opens is that of a suitable file or of none. -/
theorem openModule_none_left_iff {k : Kernel} {fuel : ℕ} {search : SearchType} {soname : Text}
    {p : Proc} {x : Except Errno Fd}
    (h : (openModule k fuel search soname p.unlogged).result = .value x) :
    (NoneLeft p x (openModule k fuel search soname p.unlogged).state ↔
      ∀ a ∈ (openModule k fuel search soname p.unlogged).state.answers, a.Harmless) ∧
    ∀ list, p.lists search = .ready list → k.Steady →
      (∀ path ∈ candidates list soname, path.length < 256 ∧ nul ∉ path) →
      (NoneLeft p x (openModule k fuel search soname p.unlogged).state ↔
        ∀ path ∈ (choose (k.lookup p.sysroot) (candidates list soname)).1,
          ∀ c, k.lookup p.sysroot path = .ok c → Suitable c) := by
  have hgeneral := openModule_leaves_none_iff h
  refine ⟨hgeneral,fun list hlist hk hpath => hgeneral.trans ?_⟩
  have hopen : openModule k fuel search soname p.unlogged =
      tryCandidates k soname (visited list) p.unlogged := openModule_of_ready hlist
  rw [hopen] at h ⊢
  obtain ⟨es,hes,hiff⟩ := tryCandidates_answered hk soname (k.lookup p.sysroot) (visited list)
    (fun dir hdir => hpath _ (List.mem_map_of_mem hdir)) p.unlogged (fun path _ => rfl) x h
  have hes : (tryCandidates k soname (visited list) p.unlogged).state.answers = es := hes
  rw [hes]
  exact hiff

/-- The library of the second directory is returned and nothing is left. -/
theorem openModule_none_left_iff_sample :
    (openModule sampleKernel 0 .host (ascii "libc.so") sampleProc.unlogged).result =
      .value (.ok 2) ∧
    NoneLeft sampleProc (.ok 2)
      (openModule sampleKernel 0 .host (ascii "libc.so") sampleProc.unlogged).state := by
  have h : (openModule sampleKernel 0 .host (ascii "libc.so") sampleProc.unlogged).result =
      .value (.ok 2) := by decide +kernel
  have hlist : sampleProc.lists .host = .ready (ascii "/a\x1E/b\x1E") := rfl
  have hpath : ∀ path ∈ candidates (ascii "/a\x1E/b\x1E") (ascii "libc.so"),
      path.length < 256 ∧ nul ∉ path := by decide +kernel
  refine ⟨h,((openModule_none_left_iff h).2 _ hlist sampleKernel_steady hpath).mpr ?_⟩
  intro path _ c hc
  have hlookup : sampleKernel.lookup sampleProc.sysroot path =
      sampleKernel.root.openRdonly path := by
    unfold Kernel.lookup
    split_ifs <;> rfl
  -- there is only the one file
  rw [hlookup] at hc
  change (if path = ascii "/b/libc.so" then Except.ok sampleElf else .error enoent) = .ok c at hc
  split_ifs at hc
  cases hc
  decide

/-- An empty file in the first directory. -/
def emptyFileKernel : Kernel :=
  { sampleKernel with root := { sampleKernel.root with
      openRdonly := fun path =>
        if path = ascii "/a/libc.so" then .ok [] else sampleKernel.root.openRdonly path } }

/-- The descriptor of the empty file is left open. -/
theorem rejected_candidate_left :
    (openModule emptyFileKernel 0 .host (ascii "libc.so") sampleProc.unlogged).result =
      .value (.ok 4) ∧
    ¬ NoneLeft sampleProc (.ok 4)
      (openModule emptyFileKernel 0 .host (ascii "libc.so") sampleProc.unlogged).state := by
  refine ⟨by decide +kernel,fun h => ?_⟩
  have hleft : 2 ∈ (openModule emptyFileKernel 0 .host (ascii "libc.so")
      sampleProc.unlogged).state.fds := by decide +kernel
  have hsysroot : (openModule emptyFileKernel 0 .host (ascii "libc.so")
      sampleProc.unlogged).state.sysroot = .ready 1 := by decide +kernel
  rcases (h 2).mp hleft with hbefore | ⟨hready,-⟩ | hreturned
  · cases hbefore
  · rw [hsysroot] at hready
    cases hready
  · cases hreturned

end Module

end WinterLily.Lookup
