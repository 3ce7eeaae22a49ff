import WinterLily.Base.Dirent
import WinterLily.Loader.Lookup
import WinterLily.Loader.SplitEnds

/-! `expand_glob` of `wl-ld-lilium/src/helpers.rs` with the buffer that `getdents64` fills, for any
callback. The directory is the text before the last `/`, and a name is tested for the prefix and for
the suffix on their own. -/
namespace WinterLily.Glob
open WinterLily.Effect WinterLily.Reader WinterLily.SplitAscii
open WinterLily.SearchList (Text slash star)
open WinterLily.Lookup (Fd At enoent nul cstr zeroed pathBuffer pathBuffer_eq)
open WinterLily.Dirent (Record)

section Program

/-- The answers of the kernel, in which an empty path names no file. `sysroot` is how `SYSROOT_FD`
is obtained, and `dents i` is what the call `i` of `getdents64` writes. -/
structure Kernel where
  sysroot : Stop (Except Errno Fd)
  openat : At → Text → Except Errno Fd
  openat_nil : ∀ dir, openat dir [] = .error enoent
  dents : ℕ → Except Errno Text

/-- The closure, with the state that it has access to. -/
abbrev Callback (σ : Type*) := Fd → Text → σ → Outcome σ (Except Errno Unit)

/-- `open_sysroot_rdonly` with its path buffer, or the panic in filling it. -/
def openBuffered (k : Kernel) (atFd : At) : Option Text → Stop (Except Errno Fd)
  | none => .panic
  | some path =>
    if path.head? = some slash then
      match k.sysroot with
      | .value (.ok root) => .value (k.openat (.sysroot root) (cstr (path.drop 1)))
      | r => r
    else .value (k.openat atFd (cstr path))

/-- `open_sysroot_rdonly`. -/
def openSysrootRdonly (k : Kernel) (atFd : At) (st : Text) : Stop (Except Errno Fd) :=
  openBuffered k atFd (pathBuffer 256 st)

def hasPrefix (long pre : Text) : Bool :=
  if long.length < pre.length then false else long.take pre.length = pre

def hasSuffix (long suf : Text) : Bool :=
  if long.length < suf.length then false else long.drop (long.length-suf.length) = suf

def suits (pre suf name : Text) : Bool := hasPrefix name pre && hasSuffix name suf

variable {σ : Type*}

/-- What is done for a name. -/
def visit (f : Callback σ) (fd : Fd) (pre suf name : Text) (s : σ) : Outcome σ (Except Errno Unit) :=
  if suits pre suf name = true then f fd name s else .pure (.ok ()) s

/-- The records of the buffer from the byte `n` on, of which `buf` is the rest. -/
def walk (f : Callback σ) (fd : Fd) (pre suf : Text) (len : ℕ) :
    ℕ → ℕ → Text → σ → Outcome σ (Except Errno Unit)
  | 0,n,_,s => if n < len then .running s else .pure (.ok ()) s
  | rounds+1,n,buf,s =>
    if n < len then
      let rlen := Dirent.reclen buf
      (visit f fd pre suf (Dirent.name buf) s).andTry fun _ s =>
        walk f fd pre suf len rounds (n+rlen) (buf.drop rlen) s
    else .pure (.ok ()) s

/-- The loop around `getdents64`. The buffer keeps what is not overwritten; its records are gone
through in as many rounds as there are bytes, unless one of length 0 is never passed. -/
def list (k : Kernel) (f : Callback σ) (fd : Fd) (pre suf : Text) :
    ℕ → ℕ → Text → σ → Outcome σ (Except Errno Unit)
  | 0,_,_,s => .running s
  | rounds+1,i,buf,s =>
    match k.dents i with
    | .error e => .pure (.error e) s
    | .ok bytes =>
      if bytes.length = 0 then .pure (.ok ()) s
      else
        let buf := bytes++buf.drop bytes.length
        (walk f fd pre suf bytes.length bytes.length 0 buf s).andTry fun _ s =>
          list k f fd pre suf rounds (i+1) buf s

/-- `expand_glob`. The answer of the close at the end is not looked at. -/
def expandGlob (k : Kernel) (rounds : ℕ) (f : Callback σ) (path : Text) (s : σ) :
    Outcome σ (Except Errno Unit) :=
  let halves := splitOnce star path
  let parts := rsplitOnce slash halves.1
  (⟨openSysrootRdonly k .cwd parts.1,s⟩ : Outcome σ (Except Errno Fd)).andTry fun fd s =>
    list k f fd parts.2 halves.2 rounds 0 (zeroed 4096) s

end Program

section Rule

/-- An absolute pattern with one `*`, in its last component. -/
structure Pattern where
  dir : Text
  pre : Text
  suf : Text
  absolute : dir = [] ∨ dir.head? = some slash
  star_dir : star ∉ dir
  star_pre : star ∉ pre
  star_suf : star ∉ suf
  slash_pre : slash ∉ pre
  slash_suf : slash ∉ suf

namespace Pattern

def path (P : Pattern) : Text := P.dir++slash::(P.pre++star::P.suf)

/-- The glob rule. -/
def Matches (P : Pattern) (name : Text) : Prop := ∃ m, name = P.pre++m++P.suf

/-- The prefix and the suffix are both there, but have bytes in common. -/
def Overlaps (P : Pattern) (name : Text) : Prop :=
  P.pre <+: name ∧ P.suf <:+ name ∧ name.length < P.pre.length+P.suf.length

lemma matches_iff (P : Pattern) (name : Text) : P.Matches name ↔
    P.pre <+: name ∧ P.suf <:+ name ∧ P.pre.length+P.suf.length ≤ name.length := by
  constructor
  · rintro ⟨m,rfl⟩
    refine ⟨⟨m++P.suf,(List.append_assoc ..).symm⟩,⟨P.pre++m,rfl⟩,?_⟩
    simp only [List.length_append]
    omega
  · rintro ⟨⟨a,rfl⟩,⟨b,hb⟩,hlen⟩
    have hle : P.suf.length ≤ a.length := by
      rw [List.length_append] at hlen
      omega
    obtain ⟨m,hm⟩ : P.suf <:+ a := by
      refine List.suffix_of_suffix_length_le ⟨b,hb⟩ (List.suffix_append ..) hle
    exact ⟨m,by rw [List.append_assoc,hm]⟩

instance (P : Pattern) : DecidablePred P.Matches :=
  fun name => decidable_of_iff _ (P.matches_iff name).symm

instance (P : Pattern) : DecidablePred P.Overlaps :=
  fun name => inferInstanceAs (Decidable (P.pre <+: name ∧ P.suf <:+ name ∧ _ < _))

end Pattern

/-- The directory is delivered in these batches of records, and then it ends. -/
def Kernel.Delivers (k : Kernel) (batches : List (List Record)) : Prop :=
  (∀ batch ∈ batches, batch ≠ []) ∧
    ∀ i, k.dents i = .ok ((batches[i]?.getD []).flatMap Record.bytes)

def contents (batches : List (List Record)) : List Text := batches.flatten.map Record.name

/-- The callback is called as the glob rule has it: for the names that match, in turn. -/
def Globs (k : Kernel) (rounds : ℕ) (P : Pattern) (names : List Text) : Prop :=
  ∀ (σ : Type) (f : Callback σ) (s : σ), ∃ fd,
    (expandGlob k rounds f P.path s).state =
      (Outcome.forEach (f fd) (names.filter P.Matches) s).state

/-- The directory fits in the path buffer, and it is opened below the sysroot. -/
def Opens (k : Kernel) (dir : Text) : Prop :=
  dir.length < 256 ∧ ∃ root fd, k.sysroot = .value (.ok root) ∧
    k.openat (.sysroot root) (cstr (dir.drop 1)) = .ok fd

end Rule

section Names

variable {pre suf name : Text}

lemma hasPrefix_iff : hasPrefix name pre = true ↔ pre <+: name := by
  unfold hasPrefix
  by_cases hlen : name.length < pre.length
  · rw [if_pos hlen]
    exact iff_of_false (by simp) fun h => absurd h.length_le (by omega)
  · rw [if_neg hlen,decide_eq_true_iff,List.prefix_iff_eq_take,eq_comm]

lemma hasSuffix_iff : hasSuffix name suf = true ↔ suf <:+ name := by
  unfold hasSuffix
  by_cases hlen : name.length < suf.length
  · rw [if_pos hlen]
    exact iff_of_false (by simp) fun h => absurd h.length_le (by omega)
  · rw [if_neg hlen,decide_eq_true_iff,List.suffix_iff_eq_drop,eq_comm]

lemma suits_iff : suits pre suf name = true ↔ pre <+: name ∧ suf <:+ name := by
  rw [suits,Bool.and_eq_true,hasPrefix_iff,hasSuffix_iff]

/-- The names that suit are those that match and those in which prefix and suffix overlap. -/
lemma filter_suits_eq_iff (P : Pattern) (names : List Text) :
    names.filter (suits P.pre P.suf) = names.filter P.Matches ↔
      ∀ name ∈ names, ¬ P.Overlaps name := by
  constructor
  · rintro h name hname ⟨hpre,hsuf,hlt⟩
    have hmem : name ∈ names.filter P.Matches := by
      rw [← h,List.mem_filter]
      exact ⟨hname,suits_iff.mpr ⟨hpre,hsuf⟩⟩
    have hmatch := (P.matches_iff name).mp (of_decide_eq_true (List.mem_filter.mp hmem).2)
    omega
  · intro h
    refine List.filter_congr fun name hname => ?_
    rw [Bool.eq_iff_iff,suits_iff,decide_eq_true_iff,P.matches_iff]
    refine ⟨fun ⟨hpre,hsuf⟩ => ⟨hpre,hsuf,?_⟩,fun ⟨hpre,hsuf,_⟩ => ⟨hpre,hsuf⟩⟩
    by_contra hlen
    exact h name hname ⟨hpre,hsuf,by omega⟩

end Names

section Records

variable {σ : Type*} (f : Callback σ) (fd : Fd) (pre suf : Text)

/-- The walk goes through the records of a batch, whatever follows them in the buffer. -/
lemma walk_records (records : List Record) (rounds n : ℕ) (rest : Text) (s : σ)
    (hrounds : records.length ≤ rounds) :
    walk f fd pre suf (n+(records.flatMap Record.bytes).length) rounds n
        (records.flatMap Record.bytes++rest) s =
      Outcome.forEach (visit f fd pre suf) (records.map Record.name) s := by
  induction records generalizing rounds n s with
  | nil => cases rounds <;> exact if_neg (lt_irrefl n)
  | cons r records ih =>
    obtain ⟨rounds,rfl⟩ := Nat.exists_eq_add_one.mpr (Nat.zero_lt_of_lt hrounds)
    have hpos := r.size_pos
    have hlen : n+((r::records).flatMap Record.bytes).length =
        n+r.bytes.length+(records.flatMap Record.bytes).length := by
      rw [List.flatMap_cons,List.length_append]
      omega
    have hlt : n < n+r.bytes.length+(records.flatMap Record.bytes).length := by
      rw [r.length_bytes]
      omega
    rw [hlen,List.flatMap_cons,List.append_assoc,walk,if_pos hlt]
    simp only [Dirent.name_bytes,Dirent.reclen_bytes,List.drop_left]
    simp only [ih rounds _ _ (Nat.le_of_succ_le_succ hrounds)]
    rfl

lemma walk_batch (records : List Record) (rest : Text) (s : σ) :
    walk f fd pre suf (records.flatMap Record.bytes).length (records.flatMap Record.bytes).length 0
        (records.flatMap Record.bytes++rest) s =
      Outcome.forEach (visit f fd pre suf) (records.map Record.name) s := by
  have h := walk_records f fd pre suf records (records.flatMap Record.bytes).length 0 rest s
    (Record.length_le_flatMap records)
  rwa [Nat.zero_add] at h

/-- The loop goes through the batches from the call `i` on. -/
lemma list_batches (k : Kernel) (batches : List (List Record)) (rounds i : ℕ) (buf : Text) (s : σ)
    (hne : ∀ batch ∈ batches, batch ≠ [])
    (hdents : ∀ j, k.dents (i+j) = .ok ((batches[j]?.getD []).flatMap Record.bytes))
    (hrounds : batches.length < rounds) :
    list k f fd pre suf rounds i buf s =
      Outcome.forEach (visit f fd pre suf) (contents batches) s := by
  induction batches generalizing rounds i buf s with
  | nil =>
    obtain ⟨rounds,rfl⟩ := Nat.exists_eq_add_one.mpr (Nat.zero_lt_of_lt hrounds)
    have hfirst := hdents 0
    rw [Nat.add_zero] at hfirst
    rw [list,hfirst]
    rfl
  | cons batch batches ih =>
    obtain ⟨rounds,rfl⟩ := Nat.exists_eq_add_one.mpr (Nat.zero_lt_of_lt hrounds)
    have hfirst : k.dents i = .ok (batch.flatMap Record.bytes) := hdents 0
    have hlen : (batch.flatMap Record.bytes).length ≠ 0 := by
      have hpos := List.length_pos_of_ne_nil (hne batch List.mem_cons_self)
      have hle := Record.length_le_flatMap batch
      omega
    have hrest : ∀ j, k.dents (i+1+j) = .ok ((batches[j]?.getD []).flatMap Record.bytes) := by
      intro j
      have h := hdents (j+1)
      rwa [show i+(j+1) = i+1+j by omega,List.getElem?_cons_succ] at h
    rw [list,hfirst]
    simp only [if_neg hlen,walk_batch]
    simp only [ih rounds (i+1) _ _ (fun b hb => hne b (List.mem_cons_of_mem _ hb)) hrest
      (Nat.lt_of_succ_lt_succ hrounds)]
    rw [show contents (batch::batches) = batch.map Record.name++contents batches by simp [contents],
      Outcome.forEach_append]

end Records

section Run

variable {k : Kernel} {P : Pattern} {batches : List (List Record)} {rounds : ℕ}

/-- A pattern is cut into its directory, prefix and suffix. -/
lemma expandGlob_path {σ : Type*} (k : Kernel) (P : Pattern) (rounds : ℕ) (f : Callback σ) (s : σ) :
    expandGlob k rounds f P.path s =
      (⟨openSysrootRdonly k .cwd P.dir,s⟩ : Outcome σ (Except Errno Fd)).andTry fun fd s =>
        list k f fd P.pre P.suf rounds 0 (zeroed 4096) s := by
  have hstar : star ∉ P.dir++slash::P.pre := by
    simp only [List.mem_append,List.mem_cons,not_or]
    exact ⟨P.star_dir,by decide,P.star_pre⟩
  have hpath : P.path = (P.dir++slash::P.pre)++star::P.suf := by simp [Pattern.path]
  have hsplit : splitOnce star P.path = (P.dir++slash::P.pre,P.suf) := by
    rw [splitOnce,hpath,next_append hstar]
    rfl
  have hrsplit : rsplitOnce slash (P.dir++slash::P.pre) = (P.dir,P.pre) := by
    rw [rsplitOnce,nextBack_append P.slash_pre]
    rfl
  rw [expandGlob,hsplit]
  simp only [hrsplit]

lemma openSysrootRdonly_nil (k : Kernel) :
    openSysrootRdonly k .cwd [] = .value (.error enoent) := by
  have hhead : (zeroed 256).head? ≠ some slash := by
    rw [zeroed,List.head?_replicate,if_neg (by omega)]
    decide
  rw [openSysrootRdonly,pathBuffer_eq,List.length_nil,if_pos (by omega),List.nil_append,openBuffered,
    if_neg hhead,Lookup.cstr_zeroed,k.openat_nil]

lemma openSysrootRdonly_slash (k : Kernel) {d : Text} (hlen : (slash::d).length < 256) :
    openSysrootRdonly k .cwd (slash::d) =
      match k.sysroot with
      | .value (.ok root) => .value (k.openat (.sysroot root) (cstr d))
      | r => r := by
  rw [openSysrootRdonly,pathBuffer_eq,if_pos hlen,List.cons_append,openBuffered,List.head?_cons,
    if_pos rfl,List.drop_one,List.tail_cons,Lookup.cstr_append_zeroed]

lemma opens_iff (k : Kernel) (P : Pattern) :
    (∃ fd, openSysrootRdonly k .cwd P.dir = .value (.ok fd)) ↔ Opens k P.dir := by
  by_cases hlen : P.dir.length < 256
  · rw [Opens,and_iff_right hlen]
    rcases P.absolute with hnil | hhead
    · rw [hnil,openSysrootRdonly_nil]
      refine iff_of_false (by simp) ?_
      rintro ⟨root,fd,-,hopen⟩
      cases hopen.symm.trans (k.openat_nil _)
    · obtain ⟨d,hd⟩ := List.head?_eq_some_iff.mp hhead
      rw [hd,openSysrootRdonly_slash k (hd ▸ hlen),List.drop_one,List.tail_cons]
      rcases k.sysroot with (e | root) | _ | _ <;> simp
  · have hpanic : openSysrootRdonly k .cwd P.dir = .panic := by
      rw [openSysrootRdonly,pathBuffer_eq,if_neg hlen,openBuffered]
    rw [hpanic]
    exact iff_of_false (by simp) fun h => hlen h.1

/-- In a directory that opens, the callback is called for the names that have the prefix and the
suffix. -/
lemma expandGlob_of_opens (h : Opens k P.dir) (hbatches : k.Delivers batches)
    (hrounds : batches.length < rounds) : ∃ fd, ∀ (σ : Type) (f : Callback σ) (s : σ),
      expandGlob k rounds f P.path s =
        Outcome.forEach (f fd) ((contents batches).filter (suits P.pre P.suf)) s := by
  obtain ⟨fd,hfd⟩ := (opens_iff k P).mpr h
  refine ⟨fd,fun σ f s => ?_⟩
  have hlist := list_batches f fd P.pre P.suf k batches rounds 0 (zeroed 4096) s hbatches.1
    (fun j => by rw [Nat.zero_add]; exact hbatches.2 j) hrounds
  rw [expandGlob_path,hfd]
  exact hlist.trans (Outcome.forEach_filter (f fd) _ _ s)

/-- Where it does not open, the callback is not called. -/
lemma expandGlob_of_not_opens {σ : Type*} (h : ¬ Opens k P.dir) (f : Callback σ) (s : σ) :
    (expandGlob k rounds f P.path s).state = s := by
  have hstop : ∀ fd, openSysrootRdonly k .cwd P.dir ≠ .value (.ok fd) :=
    fun fd hfd => h ((opens_iff k P).mp ⟨fd,hfd⟩)
  rw [expandGlob_path,Outcome.andTry_state hstop]

/-- A callback that keeps the names it is called with. -/
def record : Callback (List Text) := fun _ name names => .pure (.ok ()) (names++[name])

lemma forEach_record (fd : Fd) (names seen : List Text) :
    Outcome.forEach (record fd) names seen = .pure (.ok ()) (seen++names) := by
  induction names generalizing seen with
  | nil => rw [List.append_nil,Outcome.forEach]
  | cons name names ih =>
    rw [Outcome.forEach,record,Outcome.pure_ok_andTry,ih,List.append_assoc,List.singleton_append]

/-- The callback of a glob is called as the rule has it exactly if the directory opens, and prefix
and suffix overlap in no name of it; or if it does not open, and no name of it matches. -/
theorem globs_iff (k : Kernel) (P : Pattern) (hbatches : k.Delivers batches)
    (hrounds : batches.length < rounds) :
    Globs k rounds P (contents batches) ↔
      (Opens k P.dir ∧ ∀ name ∈ contents batches, ¬ P.Overlaps name) ∨
        (¬ Opens k P.dir ∧ ∀ name ∈ contents batches, ¬ P.Matches name) := by
  by_cases hopens : Opens k P.dir
  · obtain ⟨fd,hrun⟩ := expandGlob_of_opens hopens hbatches hrounds
    simp only [hopens,true_and,not_true_eq_false,false_and,or_false]
    rw [← filter_suits_eq_iff]
    constructor
    · intro h
      obtain ⟨fd',hstate⟩ := h _ record []
      rw [hrun,forEach_record,forEach_record] at hstate
      exact hstate
    · intro h σ f s
      exact ⟨fd,by rw [hrun,h]⟩
  · simp only [hopens,false_and,not_false_eq_true,true_and,false_or]
    rw [show (∀ name ∈ contents batches, ¬ P.Matches name) ↔
      (contents batches).filter P.Matches = [] by simp [List.filter_eq_nil_iff]]
    constructor
    · intro h
      obtain ⟨fd,hstate⟩ := h _ record []
      rw [expandGlob_of_not_opens hopens,forEach_record] at hstate
      exact hstate.symm
    · intro h σ f s
      exact ⟨0,by rw [expandGlob_of_not_opens hopens,h,Outcome.forEach,Outcome.pure]⟩

/-- A kernel that opens what has a name, and delivers these batches. -/
def serving (batches : List (List Record)) : Kernel where
  sysroot := .value (.ok 3)
  openat _ path := if path = [] then .error enoent else .ok 4
  openat_nil _ := if_pos rfl
  dents i := .ok ((batches[i]?.getD []).flatMap Record.bytes)

/-- The entry `aba`. -/
def aba : Record where
  head := List.replicate 16 0
  kind := 8
  name := [0x61,0x62,0x61]
  pad := [0]
  head_length := List.length_replicate
  name_zero := by decide
  short := by decide

/-- The pattern `/d/ab*ba`. -/
def overlapping : Pattern where
  dir := [slash,0x64]
  pre := [0x61,0x62]
  suf := [0x62,0x61]
  absolute := .inr rfl
  star_dir := by decide
  star_pre := by decide
  star_suf := by decide
  slash_pre := by decide
  slash_suf := by decide

/-- The pattern `/a*`. -/
def inRoot : Pattern where
  dir := []
  pre := [0x61]
  suf := []
  absolute := .inl rfl
  star_dir := by decide
  star_pre := by decide
  star_suf := by decide
  slash_pre := by decide
  slash_suf := by decide

lemma serving_delivers : (serving [[aba]]).Delivers [[aba]] := ⟨by simp,fun _ => rfl⟩

lemma overlapping_opens : Opens (serving [[aba]]) overlapping.dir :=
  ⟨by decide,3,4,rfl,rfl⟩

theorem globs_iff_aba : (serving [[aba]]).Delivers [[aba]] ∧ 1 < 2 ∧
    (Globs (serving [[aba]]) 2 overlapping (contents [[aba]]) ↔
      (Opens (serving [[aba]]) overlapping.dir ∧
          ∀ name ∈ contents [[aba]], ¬ overlapping.Overlaps name) ∨
        (¬ Opens (serving [[aba]]) overlapping.dir ∧
          ∀ name ∈ contents [[aba]], ¬ overlapping.Matches name)) :=
  ⟨serving_delivers,by decide,globs_iff _ overlapping serving_delivers (by decide)⟩

/-- The callback is called for `aba` with the pattern `/d/ab*ba`, which it does not match; and it is
never called with `/a*`, which `aba` matches. -/
theorem glob_not_by_rule :
    ((expandGlob (serving [[aba]]) 2 record overlapping.path []).state = [aba.name] ∧
        ¬ overlapping.Matches aba.name) ∧
      (∀ k rounds, (expandGlob k rounds record inRoot.path []).state = []) ∧
        inRoot.Matches aba.name := by
  refine ⟨⟨?_,by decide⟩,fun k rounds => ?_,by decide⟩
  · obtain ⟨fd,hrun⟩ := expandGlob_of_opens overlapping_opens serving_delivers (show 1 < 2 by decide)
    rw [hrun,forEach_record]
    rfl
  · refine expandGlob_of_not_opens (fun h => ?_) record []
    obtain ⟨fd,hfd⟩ := (opens_iff k inRoot).mpr h
    rw [show inRoot.dir = [] from rfl,openSysrootRdonly_nil] at hfd
    cases hfd

end Run

section Include

variable (k : Lookup.Kernel) (g : Lookup.ReadFile) (dirfd : Fd) (dir pre suf : Text)

/-- The closure of `read_config_file`. -/
def includeEntry : Callback Lookup.Proc := fun fd name p =>
  (Lookup.openSysrootRdonly k .entry (.dir fd dir) name p).andTry fun file p =>
    g false file.1 file.2 ⟨.new,0⟩ p

lemma forEachEntry_eq (names : List Text) (p : Lookup.Proc) :
    Lookup.forEachEntry k g dirfd dir names p =
      Outcome.forEach (includeEntry k g dir dirfd) names p := by
  induction names generalizing p with
  | nil => rfl
  | cons name names ih =>
    rw [Lookup.forEachEntry,Outcome.forEach,includeEntry]
    simp only [ih]

lemma suits_eq (name : Text) :
    suits pre suf name = (pre.isPrefixOf name && suf.isSuffixOf name) := by
  rw [Bool.eq_iff_iff,suits_iff,Bool.and_eq_true,List.isPrefixOf_iff_prefix,
    List.isSuffixOf_iff_suffix]

/-- A round of the loop over names is the walk over the records that have them. -/
theorem listEntries_eq_walk (records : List Record) (rest : Text) (rounds off : ℕ)
    (p : Lookup.Proc) (hne : records ≠ [])
    (hnames : k.getdents p.calls dir off = .ok (records.map Record.name)) :
    Lookup.listEntries k g dirfd dir (fun name => pre.isPrefixOf name && suf.isSuffixOf name)
        (rounds+1) off p =
      (walk (includeEntry k g dir) dirfd pre suf (records.flatMap Record.bytes).length
        (records.flatMap Record.bytes).length 0 (records.flatMap Record.bytes++rest)
        (p.tick.answer (.listed none))).andTry fun _ p =>
          Lookup.listEntries k g dirfd dir
            (fun name => pre.isPrefixOf name && suf.isSuffixOf name) rounds
            (off+records.length) p := by
  have hlen : records.length ≠ 0 := mt List.eq_nil_of_length_eq_zero hne
  have hvisit := Outcome.forEach_filter (includeEntry k g dir dirfd) (suits pre suf)
    (records.map Record.name) (p.tick.answer (.listed none))
  rw [Lookup.listEntries,hnames,walk_batch]
  simp only [List.length_map,if_neg hlen,forEachEntry_eq,← suits_eq]
  rw [← hvisit]
  rfl

end Include

end WinterLily.Glob
