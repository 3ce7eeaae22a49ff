import WinterLily.Loader.Lookup

/-! Which candidate `open_module` picks, on files that stay as they are: the first one with an ELF
header for the host. -/
namespace WinterLily.Lookup
open WinterLily.Effect WinterLily.File WinterLily.Reader
open WinterLily.SearchList (Text slash visited)

section Header

variable {c : Text} {w : World} {replies : List (Reply Errno)} {n : ℕ}

/-- A read that hands out bytes, or has to be tried again. -/
def Delivers (r : Reply Errno) : Prop := r = .error eintr ∨ ∃ n, r = .count n

lemma granted_bounds (hreplies : ∀ r ∈ replies, Delivers r) (off : ℕ) :
    min (replies.countP (· ≠ .error eintr)) (c.length-off) ≤ granted c off replies ∧
      granted c off replies ≤ c.length-off := by
  induction replies generalizing off with
  | nil => simp [granted]
  | cons r replies ih =>
    have hrest := fun off => ih (fun s hs => hreplies s (List.mem_cons_of_mem _ hs)) off
    rcases hreplies r (List.mem_cons_self ..) with rfl | ⟨m,rfl⟩
    · rw [List.countP_cons_of_neg (by simp)]
      simp only [granted,if_true]
      exact hrest off
    · rw [List.countP_cons_of_pos (by simp)]
      simp only [granted]
      have hcount : count c off 128 m = min (max m 1) (min 128 (c.length-off)) := rfl
      have hoff := hrest (off+count c off 128 m)
      split_ifs with hzero <;> omega

lemma countP_tail (replies : List (Reply Errno)) : replies.countP (· ≠ .error eintr) ≤
    replies.tail.countP (· ≠ .error eintr)+1 := by
  cases replies with
  | nil => simp
  | cons r replies =>
    rw [List.countP_cons,List.tail_cons]
    split_ifs <;> omega

/-- `read_exact` on reads that do not fail delivers what the file has. -/
lemma readExact_delivers (hw : w.Valid c) (hreplies : ∀ r ∈ replies, Delivers r)
    (hcount : n < replies.countP (· ≠ .error eintr)) (hn : 0 < n) :
    ∃ x v, readExact c replies n [] w = some (x,v) ∧ v.Valid c ∧
      ((w.position+n ≤ c.length ∧ x = .ok (slice c w.position n) ∧ v.position = w.position+n) ∨
        (c.length < w.position+n ∧ ∃ e, x = .error e)) := by
  have hsome : (readExact c replies n [] w).isSome = true := readExact_isSome hw (le_of_lt hcount)
  obtain ⟨⟨x,v⟩,hxv⟩ := Option.isSome_iff_exists.mp hsome
  obtain ⟨hv,hdel⟩ := readExact_spec hw hxv
  have hoff := hw.offset_eq
  have hlen : w.avail ≤ c.length-w.position := by
    have h := congrArg List.length hw.unread_eq
    rw [length_unread,File.length_slice] at h
    omega
  have hsupplied : min n (c.length-w.position) ≤ supplied c w replies ∧
      supplied c w replies ≤ max w.avail (c.length-w.position) := by
    rw [supplied]
    split_ifs with havail
    · have hbounds := granted_bounds (c := c) hreplies w.offset
      omega
    · have hbounds := granted_bounds (c := c)
        (fun r hr => hreplies r (List.mem_of_mem_tail hr)) w.offset
      have htail := countP_tail replies
      omega
  refine ⟨x,v,hxv,hv,?_⟩
  rcases hdel with ⟨hle,hx,hslice,hpos⟩ | ⟨hlt,hx,-⟩
  · refine .inl ⟨?_,hx,hpos⟩
    rw [File.length_slice] at hslice
    omega
  · exact .inr ⟨by omega,hx⟩

end Header

section Probe

/-- The files stay as they are, reads do not fail and there are enough of them, and `lseek`
succeeds. -/
structure Kernel.Steady (k : Kernel) : Prop where
  openFault : ∀ t, k.openFault t = none
  delivers : ∀ t, ∀ r ∈ k.replies t, Delivers r
  enough : ∀ t, 48 < (k.replies t).countP (· ≠ .error eintr)
  lseek : ∀ t, k.lseek t = none

/-- A complete ELF header of the class and the machine of the host. -/
def Suitable (content : Text) : Prop :=
  64 ≤ content.length ∧ content[4]? = some hostClass ∧ slice content 18 2 = hostMachine

instance : DecidablePred Suitable :=
  fun content => inferInstanceAs (Decidable (64 ≤ content.length ∧ content[4]? = some hostClass ∧
    slice content 18 2 = hostMachine))

def Proc.file (p : Proc) (fd : Fd) : Option OpenFile := p.table.lookup fd

lemma file_moved (p : Proc) (fd : Fd) (offset : ℕ) : (p.moved fd offset).file fd =
    (p.file fd).map fun f => ⟨f.dir,f.path,offset⟩ := by
  rw [Proc.file,Proc.moved,Proc.file]
  induction p.table with
  | nil => rfl
  | cons e table ih =>
    rw [List.map_cons]
    by_cases h : e.1 = fd
    · rw [if_pos h,List.lookup_cons,List.lookup_cons]
      simp [h]
    · have h' : (fd == e.1) = false := beq_eq_false_iff_ne.mpr (Ne.symm h)
      rw [if_neg h,List.lookup_cons,List.lookup_cons,h',ih]

lemma rewind_of_none {k : Kernel} {p : Proc} (h : k.lseek p.calls = none) (fd : Fd) (c : Text)
    (w : World) :
    rewind k fd c w p = .pure .accepted ((p.tick.moved fd 0).answer (.rewound none)) := by
  have hseek : File.lseek einval c.length w.offset (lseekArgs (.start 0)).2.toInt
      (lseekArgs (.start 0)).1 (k.lseek p.calls) = .ok 0 := by
    have htarget : (lseekArgs (.start 0)).1.target c.length w.offset
        (lseekArgs (.start 0)).2.toInt = 0 := by rfl
    rw [lseek_ok_iff,htarget]
    exact ⟨h,le_rfl,by decide,rfl⟩
  rw [rewind,seek_eq_ok hseek]

/-- What the reading of a header leaves alone. -/
structure SameLookup (p q : Proc) : Prop where
  uses : q.uses = p.uses
  sysroot : q.sysroot = p.sysroot

lemma head_slice (content : Text) : (slice content 0 16)[4]? = content[4]? := by
  simp [slice]

lemma machine_slice (c : Text) : slice (slice c 0 16++slice c 16 48) 18 2 = slice c 18 2 := by
  have hsplit : slice c 0 16++slice c 16 48 = slice c 0 64 := (slice_add c 0 16 48).symm
  rw [hsplit,slice,drop_slice,take_slice]
  rfl

/-- A file that could be opened is accepted exactly if it suits, and then its offset is 0. -/
lemma probe_steady {k : Kernel} (hk : k.Steady) (fd : Fd) (c : Text) (p : Proc) :
    ∃ q, SameLookup p q ∧
      ((Suitable c ∧ probe k fd c p = .pure .accepted q ∧
        q.file fd = (p.file fd).map fun f => ⟨f.dir,f.path,0⟩) ∨
      (¬ Suitable c ∧ probe k fd c p = .pure .rejected q)) := by
  have hstart : World.position ⟨.new,0⟩ = 0 := rfl
  have hfirst := hk.enough p.calls
  have hsecond := hk.enough (p.calls+1)
  obtain ⟨x,v,hxv,hv,hx⟩ := readExact_delivers (n := 16) (valid_new c 0) (hk.delivers p.calls)
    (by omega) (by omega)
  rw [hstart,Nat.zero_add] at hx
  rw [probe,hxv]
  rcases hx with ⟨hlen,rfl,hpos⟩ | ⟨hshort,e,rfl⟩
  · dsimp only
    rw [head_slice]
    split_ifs with hclass
    · refine ⟨_,?_,.inr ⟨fun h => hclass h.2.1,rfl⟩⟩
      exact ⟨rfl,rfl⟩
    obtain ⟨y,u,hyu,-,hy⟩ := readExact_delivers (n := 48) hv (hk.delivers (p.calls+1)) hsecond
      (by omega)
    rw [hpos] at hy
    rw [hyu]
    rcases hy with ⟨hlen',rfl,-⟩ | ⟨hshort,e,rfl⟩
    · dsimp only
      rw [machine_slice]
      split_ifs with hmachine
      · refine ⟨_,?_,.inr ⟨fun h => hmachine h.2.2,rfl⟩⟩
        exact ⟨rfl,rfl⟩
      rw [rewind_of_none (hk.lseek _)]
      refine ⟨_,?_,.inl ⟨⟨hlen',not_not.mp hclass,not_not.mp hmachine⟩,rfl,?_⟩⟩
      · exact ⟨rfl,rfl⟩
      · have hmoved := file_moved p.tick.tick fd u.offset
        refine (file_moved _ fd 0).trans ?_
        change Option.map _ ((p.tick.tick.moved fd u.offset).file fd) = _
        rw [hmoved,Option.map_map]
        rfl
    · refine ⟨_,?_,.inr ⟨fun h => absurd h.1 (by omega),rfl⟩⟩
      exact ⟨rfl,rfl⟩
  · refine ⟨_,?_,.inr ⟨fun h => absurd h.1 (by omega),rfl⟩⟩
    exact ⟨rfl,rfl⟩

end Probe

section Choice

/-- The paths that are opened in turn, and the one that is chosen or the error. -/
def choose (fs : Text → Except Errno Text) : List Text → List Text × Except Errno Text
  | [] => ([],.error enoent)
  | path::paths =>
    match fs path with
    | .ok c =>
      if Suitable c then ([path],.ok path)
      else (path::(choose fs paths).1,(choose fs paths).2)
    | .error e =>
      if e = enoent ∨ e = eacces then (path::(choose fs paths).1,(choose fs paths).2)
      else ([path],.error e)

/-- What opening a path finds, with the lock of the sysroot as it is. -/
def Kernel.lookup (k : Kernel) (slot : Slot Fd) (path : Text) : Except Errno Text :=
  if path.head? = some slash ∧ slot = .fresh then
    match k.sysrootFault with
    | some e => .error e
    | none => k.root.openRdonly path
  else k.root.openRdonly path

/-- The paths that stand for a library, in the order of the search list. -/
def candidates (list soname : Text) : List Text := (visited list).map (·++slash::soname)

/-- The file was opened by this path. -/
def OpenFile.Names (f : OpenFile) (path : Text) : Prop :=
  f.dir = .cwd ∧ f.path = path ∨ ∃ fd, f.dir = .sysroot fd ∧ slash::f.path = path

/-- The C strings that were passed on. -/
def Use.cString : Use → Option Text
  | .name _ _ passed => passed
  | _ => none

/-- The descriptor is that of the chosen file, at its start. -/
def Picked (p : Proc) : Except Errno Text → Except Errno Fd → Prop
  | .ok path,.ok fd => ∃ f, p.file fd = some f ∧ f.offset = 0 ∧ f.Names path
  | .error e,.error e' => e' = e
  | _,_ => False

/-- The paths are opened in order as they are, and the first suitable one is returned. -/
def Picks (fs : Text → Except Errno Text) (paths : List Text) (us : List Use)
    (o : Act (Except Errno Fd)) : Prop :=
  us.filterMap Use.cString = (choose fs paths).1 ∧
    ∃ x, o.result = .value x ∧ Picked o.state (choose fs paths).2 x

variable {k : Kernel} {st : Text} {p q : Proc}

/-- A slot in which every lookup that does not panic finds the same. -/
def SlotAgrees (k : Kernel) (slot : Slot Fd) (fs : Text → Except Errno Text) : Prop :=
  ∀ path : Text, (path.head? = some slash → slot ≠ .poisoned) → k.lookup slot path = fs path

def absolute (path : Text) : Bool := path.head? = some slash

/-- The lock of the sysroot lets this many absolute paths be looked up. -/
def Usable (k : Kernel) : Slot Fd → ℕ → Prop
  | .ready _,_ => True
  | .poisoned,n => n = 0
  | .fresh,n => n = 0 ∨ k.NamesSysroot ∧ (k.sysrootFault = none ∨ n = 1)

lemma usable_zero (k : Kernel) (slot : Slot Fd) : Usable k slot 0 := by
  cases slot with
  | ready fd => trivial
  | poisoned => rfl
  | fresh => exact .inl rfl

/-- An absolute path takes one of the lookups that the lock allows. -/
lemma Reaches.usable {dir at' : At} {path : Text} (hq : Reaches k dir st p at' path q) (n : ℕ) :
    Usable k p.sysroot (n+if absolute st then 1 else 0) ↔ Usable k q.sysroot n := by
  cases hq with
  | relative hhead =>
    rw [absolute,decide_eq_false hhead]
    rfl
  | known _ hslot =>
    change _ ↔ Usable k p.sysroot n
    rw [hslot]
    rfl
  | opened hst hslot hfault =>
    rw [hslot.1]
    exact iff_of_true (.inr ⟨hslot.2,.inl hfault⟩) trivial

/-- A sysroot that cannot be opened allows one lookup. -/
lemma usable_fresh_iff (henv : k.NamesSysroot) {e : Errno} (hfault : k.sysrootFault = some e)
    (n : ℕ) : Usable k .fresh (n+1) ↔ Usable k .poisoned n := by
  simp [Usable,henv,hfault]

lemma not_usable (hslot : p.sysroot = .poisoned ∨ p.sysroot = .fresh ∧ ¬ k.NamesSysroot) (n : ℕ) :
    ¬ Usable k p.sysroot (n+1) := by
  rcases hslot with hslot | ⟨hslot,henv⟩
  · rw [hslot]
    exact Nat.succ_ne_zero n
  · rw [hslot]
    rintro (h | h)
    · exact Nat.succ_ne_zero n h
    · exact henv h.1

/-- What `open_sysroot_rdonly` does when it returns, on files that stay as they are. -/
structure Looked (k : Kernel) (st : Text) (p : Proc) (r : Except Errno (Fd × Text)) (q : Proc) :
    Prop where
  uses : q.uses = p.uses++[Use.path st]
  found : r.map Prod.snd = k.lookup p.sysroot (cstr st)
  unpoisoned : st.head? = some slash → p.sysroot ≠ .poisoned
  agrees : ∀ fs, SlotAgrees k p.sysroot fs → SlotAgrees k q.sysroot fs
  usable : ∀ n, Usable k p.sysroot (n+if absolute st then 1 else 0) ↔ Usable k q.sysroot n
  file : ∀ fd c, r = .ok (fd,c) → ∃ f, q.file fd = some f ∧ f.offset = 0 ∧ f.Names (cstr st)

lemma head_cstr_ne (h : st.head? ≠ some slash) : (cstr st).head? ≠ some slash := by
  cases st with
  | nil => exact h
  | cons b rest =>
    rw [cstr,List.takeWhile_cons]
    split_ifs
    · exact h
    · simp

/-- The `openat` that a lookup comes to, and the slot of the sysroot there. -/
lemma Reaches.lookup (hk : k.Steady) {at' : At} {path : Text} (hq : Reaches k .cwd st p at' path q) :
    k.find q.calls at' path = k.lookup p.sysroot (cstr st) ∧
      (st.head? = some slash → p.sysroot ≠ .poisoned) ∧
      (∀ fs, SlotAgrees k p.sysroot fs → SlotAgrees k q.sysroot fs) ∧
      ∀ n, (OpenFile.mk at' path n).Names (cstr st) := by
  cases hq with
  | relative hhead =>
    refine ⟨?_,fun h => absurd h hhead,fun fs h => h,fun n => .inl ⟨rfl,rfl⟩⟩
    rw [Kernel.find,hk.openFault,Kernel.lookup,if_neg fun h => head_cstr_ne hhead h.1]
  | @known rest fd hst hslot =>
    subst hst
    rw [cstr_slash,hslot]
    refine ⟨?_,fun _ => nofun,fun fs h => ?_,fun n => .inr ⟨fd,rfl,rfl⟩⟩
    · rw [Kernel.find,hk.openFault,Kernel.lookup,if_neg fun h => nomatch h.2]
    · exact hslot ▸ h
  | opened hst hslot hfault =>
    subst hst
    rw [cstr_slash,hslot.1]
    refine ⟨?_,fun _ => nofun,fun fs h path _ => ?_,fun n => .inr ⟨_,rfl,rfl⟩⟩
    · rw [Kernel.find,hk.openFault,Kernel.lookup,hfault]
      simp
    · rw [← h path fun _ => nofun,Kernel.lookup,Kernel.lookup,hfault]
      simp

lemma openSysrootRdonly_looked (hk : k.Steady) (why : Purpose) (hlen : st.length < 256)
    (p : Proc) :
    (openSysrootRdonly k why .cwd st p = .panic (p.use (.path st)) ∧ absolute st = true ∧
      ∀ n, ¬ Usable k p.sysroot (n+1)) ∨
      ∃ r q, openSysrootRdonly k why .cwd st p = .pure r q ∧ Looked k st p r q := by
  have hout := openSysrootRdonly_outcome k why .cwd st p
  generalize openSysrootRdonly k why .cwd st p = o at hout ⊢
  cases hout with
  | long h => exact absurd hlen h
  | stopped _ hhead hslot => exact .inl ⟨rfl,decide_eq_true hhead,not_usable hslot⟩
  | unopenable _ hhead hslot hfault =>
    refine .inr ⟨_,_,rfl,rfl,?_,?_,?_,fun n => ?_,nofun⟩
    · obtain ⟨rest,rfl⟩ := eq_cons_of_head hhead
      rw [cstr_slash,hslot.1,Kernel.lookup,if_pos ⟨rfl,rfl⟩,hfault]
      rfl
    · rw [hslot.1]
      exact fun _ => nofun
    · intro fs h path hpath
      have hrel : path.head? ≠ some slash := fun h' => hpath h' rfl
      rw [← h path fun h' => absurd h' hrel,Kernel.lookup,Kernel.lookup,
        if_neg fun h' => hrel h'.1,if_neg fun h' => hrel h'.1]
    · rw [absolute,decide_eq_true hhead,hslot.1]
      exact usable_fresh_iff hslot.2 hfault n
  | refused _ hq hfind =>
    obtain ⟨hlookup,hslot,hagrees,-⟩ := hq.lookup hk
    refine .inr ⟨_,_,rfl,hq.uses,?_,hslot,hagrees,hq.usable,nofun⟩
    rw [← hlookup,hfind]
    rfl
  | found _ hq hfind =>
    obtain ⟨hlookup,hslot,hagrees,hnames⟩ := hq.lookup hk
    refine .inr ⟨_,_,rfl,hq.uses,?_,hslot,hagrees,hq.usable,?_⟩
    · rw [← hlookup,hfind]
      rfl
    · intro fd c h
      cases h
      exact ⟨_,List.lookup_cons_self,rfl,hnames 0⟩

variable {fs : Text → Except Errno Text} {paths : List Text} {rest : List Use}
  {o : Act (Except Errno Fd)}

lemma choose_of_error {e : Errno} (h : fs st = .error e) (paths : List Text) :
    choose fs (st::paths) = if e = enoent ∨ e = eacces then
      (st::(choose fs paths).1,(choose fs paths).2) else ([st],.error e) := by
  rw [choose,h]

lemma choose_of_ok {c : Text} (h : fs st = .ok c) (paths : List Text) :
    choose fs (st::paths) = if Suitable c then ([st],.ok st) else
      (st::(choose fs paths).1,(choose fs paths).2) := by
  rw [choose,h]

lemma choose_head (fs : Text → Except Errno Text) (path : Text) (paths : List Text) :
    (choose fs (path::paths)).1 = path::(choose fs (path::paths)).1.tail := by
  rw [choose]
  split <;> split_ifs <;> rfl

/-- What the round of a candidate puts in buffers. -/
def roundUses (st : Text) : List Use := [.slice 4095 st (some st),.path st]

lemma cString_roundUses (st : Text) (rest : List Use) :
    (roundUses st++rest).filterMap Use.cString = cstr st::rest.filterMap Use.cString := rfl

/-- The paths have no NUL in them, and the lock of the sysroot holds out. -/
def Passable (k : Kernel) (slot : Slot Fd) (paths : List Text) : Prop :=
  (∀ path ∈ paths, nul ∉ path) ∧ Usable k slot (paths.countP absolute)

/-- A round with a NUL in its path opens another one. -/
lemma picks_round_iff {r : Except Errno (Fd × Text)} (h : Looked k st p r q)
    (hround : nul ∉ st → (Picks fs (st::paths) (roundUses st++rest) o ↔
      Passable k q.sysroot (choose fs (st::paths)).1.tail)) :
    Picks fs (st::paths) (roundUses st++rest) o ↔
      Passable k p.sysroot (choose fs (st::paths)).1 := by
  have hcond : Passable k p.sysroot (choose fs (st::paths)).1 ↔
      nul ∉ st ∧ Passable k q.sysroot (choose fs (st::paths)).1.tail := by
    rw [choose_head,Passable,List.forall_mem_cons,List.countP_cons,h.usable,and_assoc]
    rfl
  rw [hcond]
  constructor
  · intro hpicks
    have hfst := hpicks.1
    rw [cString_roundUses,choose_head] at hfst
    have hnul : nul ∉ st := (cstr_eq_self_iff st).mp (List.cons.inj hfst).1
    exact ⟨hnul,(hround hnul).mp hpicks⟩
  · rintro ⟨hnul,hrest⟩
    exact (hround hnul).mpr hrest

/-- A candidate that is passed over. -/
lemma picks_skip_iff (hnul : nul ∉ st)
    (hchoose : choose fs (st::paths) = (st::(choose fs paths).1,(choose fs paths).2)) :
    Picks fs (st::paths) (roundUses st++rest) o ↔ Picks fs paths rest o := by
  rw [Picks,Picks,hchoose,cString_roundUses,cstr_of_notMem hnul]
  simp

/-- A candidate that ends the loop. -/
lemma picks_last (hnul : nul ∉ st) {x : Except Errno Fd}
    {y : Except Errno Text} (hchoose : choose fs (st::paths) = ([st],y)) (hx : Picked q y x) :
    Picks fs (st::paths) (roundUses st++[]) (.pure x q) := by
  rw [Picks,hchoose,cString_roundUses,cstr_of_notMem hnul]
  exact ⟨rfl,x,rfl,hx⟩

/-- What the opening of a path without a NUL finds is what stands there. -/
lemma Looked.eq {r : Except Errno (Fd × Text)} (h : Looked k st p r q)
    (hfs : SlotAgrees k p.sysroot fs) (hnul : nul ∉ st) : fs st = r.map Prod.snd := by
  rw [h.found,cstr_of_notMem hnul,hfs st h.unpoisoned]

/-- A candidate is passed over or ends the loop, as the file that stands there says. -/
lemma judge_steady (hk : k.Steady) {r : Except Errno (Fd × Text)} (h : Looked k st p r q)
    (hfs : SlotAgrees k p.sysroot fs) (next : Proc → Act (Except Errno Fd)) (paths : List Text) :
    ∃ q', SameLookup q q' ∧
      ((judge k next r q = next q' ∧ (nul ∉ st →
        choose fs (st::paths) = (st::(choose fs paths).1,(choose fs paths).2))) ∨
      ∃ x, judge k next r q = .pure x q' ∧ (nul ∉ st →
        ∃ y, choose fs (st::paths) = ([st],y) ∧ Picked q' y x)) := by
  cases r with
  | error e =>
    refine ⟨q,⟨rfl,rfl⟩,?_⟩
    rw [judge]
    split_ifs with hskip
    · exact .inl ⟨rfl,fun hnul => (choose_of_error (h.eq hfs hnul) paths).trans (if_pos hskip)⟩
    · refine .inr ⟨_,rfl,fun hnul => ⟨.error e,?_,rfl⟩⟩
      exact (choose_of_error (h.eq hfs hnul) paths).trans (if_neg hskip)
  | ok file =>
    obtain ⟨fd,c⟩ := file
    rw [judge]
    obtain ⟨q',hsame,⟨hsuits,hprobe,hfile⟩ | ⟨hsuits,hprobe⟩⟩ := probe_steady hk fd c q
    · refine ⟨q',hsame,.inr ⟨.ok fd,by rw [hprobe]; rfl,fun hnul => ⟨.ok st,?_,?_⟩⟩⟩
      · exact (choose_of_ok (h.eq hfs hnul) paths).trans (if_pos hsuits)
      · obtain ⟨f,hf,-,hnames⟩ := h.file fd c rfl
        rw [cstr_of_notMem hnul] at hnames
        have hfile' : q'.file fd = some ⟨f.dir,f.path,0⟩ := by rw [hfile,hf]; rfl
        exact ⟨_,hfile',rfl,hnames⟩
    · refine ⟨q',hsame,.inl ⟨by rw [hprobe]; rfl,fun hnul => ?_⟩⟩
      exact (choose_of_ok (h.eq hfs hnul) paths).trans (if_neg hsuits)

/-- A round and the rounds after it, if these pick what they should. -/
lemma judge_picks_iff (hk : k.Steady) {r : Except Errno (Fd × Text)} (h : Looked k st p r q)
    (hfs : SlotAgrees k p.sysroot fs) {next : Proc → Act (Except Errno Fd)}
    (hnext : ∀ p : Proc, SlotAgrees k p.sysroot fs → ∃ us, (next p).state.uses = p.uses++us ∧
      (Picks fs paths us (next p) ↔ Passable k p.sysroot (choose fs paths).1)) :
    ∃ rest, (judge k next r q).state.uses = q.uses++rest ∧
      (nul ∉ st → (Picks fs (st::paths) (roundUses st++rest) (judge k next r q) ↔
        Passable k q.sysroot (choose fs (st::paths)).1.tail)) := by
  obtain ⟨q',hsame,⟨hjudge,hchoose⟩ | ⟨x,hjudge,hchoose⟩⟩ := judge_steady hk h hfs next paths
  · obtain ⟨rest,huses,hiff⟩ := hnext q' (hsame.sysroot ▸ h.agrees fs hfs)
    rw [hjudge]
    refine ⟨rest,by rw [huses,hsame.uses],fun hnul => ?_⟩
    rw [picks_skip_iff hnul (hchoose hnul),hiff,hchoose hnul,List.tail_cons,hsame.sysroot]
  · rw [hjudge]
    refine ⟨[],hsame.uses.trans (List.append_nil _).symm,fun hnul => ?_⟩
    obtain ⟨y,hy,hpicked⟩ := hchoose hnul
    rw [hy,List.tail_cons]
    exact iff_of_true (picks_last hnul hy hpicked) ⟨by simp,usable_zero k q.sysroot⟩

lemma tryCandidates_picks_iff (hk : k.Steady) (soname : Text) (fs : Text → Except Errno Text)
    (dirs : List Text) (hlen : ∀ dir ∈ dirs, (dir++slash::soname).length < 256) (p : Proc)
    (hfs : SlotAgrees k p.sysroot fs) :
    ∃ us, (tryCandidates k soname dirs p).state.uses = p.uses++us ∧
      (Picks fs (dirs.map (·++slash::soname)) us (tryCandidates k soname dirs p) ↔
        Passable k p.sysroot (choose fs (dirs.map (·++slash::soname))).1) := by
  induction dirs generalizing p with
  | nil =>
    refine ⟨[],(List.append_nil _).symm,iff_of_true ⟨rfl,_,rfl,rfl⟩ ?_⟩
    exact ⟨by simp [choose],usable_zero k p.sysroot⟩
  | cons dir dirs ih =>
    have hst := hlen dir (List.mem_cons_self ..)
    have hnext := ih fun d hd => hlen d (List.mem_cons_of_mem _ hd)
    rw [tryCandidates,candidatePath_eq,if_pos (by omega),tryCandidate,List.map_cons]
    set q := p.use (.slice 4095 (dir++slash::soname) (some (dir++slash::soname)))
    rcases openSysrootRdonly_looked hk .candidate hst q with ⟨hopen,habs,hslot⟩ |
      ⟨r,q',hopen,hlooked⟩
    · rw [hopen,Outcome.panic_andThen]
      refine ⟨roundUses (dir++slash::soname),?_,?_⟩
      · simp [Outcome.panic,q,Proc.use,roundUses]
      · refine iff_of_false ?_ ?_
        · rintro ⟨-,x,hx,-⟩
          cases hx
        · rintro ⟨-,husable⟩
          rw [choose_head,List.countP_cons_of_pos habs] at husable
          exact hslot _ husable
    · rw [hopen,Outcome.pure_andThen]
      obtain ⟨rest,huses,hiff⟩ := judge_picks_iff hk hlooked hfs hnext
      refine ⟨roundUses (dir++slash::soname)++rest,?_,?_⟩
      · rw [huses,hlooked.uses]
        simp [q,Proc.use,roundUses]
      · have hround := picks_round_iff hlooked hiff
        exact hround

/-- With a search list that is there already only the candidates are tried. -/
lemma openModule_of_ready {fuel : ℕ} {search : SearchType} {list soname : Text} {p : Proc}
    (hlist : p.lists search = .ready list) :
    openModule k fuel search soname p = tryCandidates k soname (visited list) p := by
  rw [openModule,searchList,getOrTryInit,hlist]
  rfl

/-- `open_module` picks the first suitable candidate exactly if the paths that are opened up to it
have no NUL in them, and not more than one of them is absolute when the sysroot cannot be opened. -/
theorem openModule_picks_iff (hk : k.Steady) (fuel : ℕ) {search : SearchType} {list : Text}
    (soname : Text) {p : Proc} (hlist : p.lists search = .ready list)
    (hlen : ∀ path ∈ candidates list soname, path.length < 256) :
    Picks (k.lookup p.sysroot) (candidates list soname)
      (openModule k fuel search soname p.unlogged).state.uses
      (openModule k fuel search soname p.unlogged) ↔
    Passable k p.sysroot (choose (k.lookup p.sysroot) (candidates list soname)).1 := by
  have hopen : openModule k fuel search soname p.unlogged =
      tryCandidates k soname (visited list) p.unlogged := openModule_of_ready hlist
  have hlen' : ∀ dir ∈ visited list, (dir++slash::soname).length < 256 :=
    fun dir hdir => hlen _ (List.mem_map_of_mem hdir)
  obtain ⟨us,huses,hiff⟩ := tryCandidates_picks_iff hk soname (k.lookup p.sysroot) (visited list)
    hlen' p.unlogged fun path _ => rfl
  rw [hopen,huses]
  exact hiff

/-- An ELF file for the host, as far as its header goes. -/
def sampleElf : Text :=
  [0x7F,0x45,0x4C,0x46,0x02]++List.replicate 13 0++[0x3E,0x00]++List.replicate 44 0

/-- A kernel whose only file is a library in `/b`. -/
def sampleKernel : Kernel :=
  { emptyKernel with root := { emptyKernel.root with
      openRdonly := fun path => if path = ascii "/b/libc.so" then .ok sampleElf else .error enoent } }

/-- A process whose search list is `/a` and `/b`. -/
def sampleProc : Proc := { Proc.start with lists := fun _ => .ready (ascii "/a\x1E/b\x1E") }

lemma sampleKernel_steady : sampleKernel.Steady where
  openFault := fun _ => rfl
  delivers := by
    intro t r hr
    exact .inr ⟨64,List.eq_of_mem_replicate hr⟩
  enough := by
    intro t
    change 48 < (List.replicate 64 (Reply.count 64)).countP _
    rw [List.countP_replicate,if_pos (by decide)]
    decide
  lseek := fun _ => rfl

lemma candidates_sample : candidates (ascii "/a\x1E/b\x1E") (ascii "libc.so") =
    [ascii "/a/libc.so",ascii "/b/libc.so"] := by decide

/-- The library in the second directory is returned. -/
theorem openModule_picks_iff_sample :
    Picks (sampleKernel.lookup sampleProc.sysroot)
      (candidates (ascii "/a\x1E/b\x1E") (ascii "libc.so"))
      (openModule sampleKernel 0 .host (ascii "libc.so") sampleProc.unlogged).state.uses
      (openModule sampleKernel 0 .host (ascii "libc.so") sampleProc.unlogged) ∧
    choose (sampleKernel.lookup sampleProc.sysroot)
      (candidates (ascii "/a\x1E/b\x1E") (ascii "libc.so")) =
        ([ascii "/a/libc.so",ascii "/b/libc.so"],.ok (ascii "/b/libc.so")) := by
  have hlist : sampleProc.lists .host = .ready (ascii "/a\x1E/b\x1E") := rfl
  have hchoose : choose (sampleKernel.lookup sampleProc.sysroot)
      (candidates (ascii "/a\x1E/b\x1E") (ascii "libc.so")) =
        ([ascii "/a/libc.so",ascii "/b/libc.so"],.ok (ascii "/b/libc.so")) := by decide +kernel
  have hsysroot : sampleKernel.NamesSysroot := by
    intro e he
    cases he
  have hpass : Passable sampleKernel sampleProc.sysroot
      [ascii "/a/libc.so",ascii "/b/libc.so"] := ⟨by decide,.inr ⟨hsysroot,.inl rfl⟩⟩
  have hiff := openModule_picks_iff sampleKernel_steady 0 (ascii "libc.so") hlist
    (by rw [candidates_sample]; decide)
  rw [hchoose] at hiff
  exact ⟨hiff.mpr hpass,hchoose⟩

/-- `WL_SYSROOT` is set to a directory that does not exist. -/
def missingSysroot : Kernel :=
  { emptyKernel with environ := [ascii "WL_SYSROOT=/none"], sysrootFault := some enoent }

/-- The second absolute candidate finds the lock of the sysroot poisoned. -/
theorem missing_sysroot_panics :
    cenvEntry missingSysroot.environ (ascii "WL_SYSROOT") = some (ascii "WL_SYSROOT=/none") ∧
    (openModule missingSysroot 0 .host (ascii "libc.so") sampleProc).result = .panic ∧
    choose (missingSysroot.lookup sampleProc.sysroot)
      (candidates (ascii "/a\x1E/b\x1E") (ascii "libc.so")) =
        ([ascii "/a/libc.so",ascii "/b/libc.so"],.error enoent) := by
  decide +kernel

end Choice

end WinterLily.Lookup
