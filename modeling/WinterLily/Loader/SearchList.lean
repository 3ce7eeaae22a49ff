import WinterLily.Loader.Reader
import WinterLily.Loader.SplitAscii
import Mathlib.Data.List.DropRight

/-! The library search list of `wl-ld-lilium/src/ldso.rs`: `read_config_file` with its includes, and
`init_cache_slow`, which puts the directories of an environment variable before those of the
configuration. A directory is ended by the byte `0x1E` in the list. -/
namespace WinterLily.SearchList
open WinterLily.File WinterLily.Reader WinterLily.SplitAscii

abbrev Text := List UInt8

def newline : UInt8 := 0x0A
def hash : UInt8 := 0x23
def star : UInt8 := 0x2A
def slash : UInt8 := 0x2F
def colon : UInt8 := 0x3A
def separator : UInt8 := 0x1E

/-- `"include "`. -/
def includeWord : Text := [0x69,0x6E,0x63,0x6C,0x75,0x64,0x65,0x20]

/-- What the loader finds under the sysroot: `open_sysroot_rdonly`, the names of a directory, the
files in it, and the kernel's answers to the reads and closes, one for each tick. -/
structure Sysroot where
  openRdonly : Text → Except Errno Text
  listing : Text → Except Errno (List Text)
  openAt : Text → Text → Except Errno Text
  reply : ℕ → Reply Errno
  close : ℕ → Option Errno

/-- `trim_ascii`. -/
def isAsciiWhitespace (b : UInt8) : Bool := b = 0x20 || b = 0x09 || b = 0x0A || b = 0x0C || b = 0x0D

def trimAscii (v : Text) : Text := (v.dropWhile isAsciiWhitespace).rdropWhile isAsciiWhitespace

/-- `strip_prefix`. -/
def strip (head v : Text) : Option Text :=
  if v.take head.length = head then some (v.drop head.length) else none

/-- `copy_to_slice_head`, for a source that fits. -/
def copyToSliceHead (dest src : Text) : Text := src++dest.drop src.length

/-- The `resize` and copy with which both functions append a directory. -/
def appendDir (buf v : Text) : Text :=
  let resized := buf++List.replicate (v.length+1) separator
  resized.take buf.length++copyToSliceHead (resized.drop buf.length) v

section ReadLine

/-- `read_line_static` into `cap` bytes, of which `out` are written, for at most `fuel` rounds; the
first one is at tick `t`. -/
def readLineStatic (root : Sysroot) (c : Text) (cap : ℕ) :
    ℕ → ℕ → Text → World → Option (Except Errno (Option Text) × World × ℕ)
  | 0,_,_,_ => none
  | fuel+1,t,out,w =>
    match fillBuf c (root.reply t) w with
    | (.error e,w) => some (.error e,w,t+1)
    | (.ok buf,w) =>
      if buf.length = 0 then some (.ok none,w,t+1)
      else
        let tail := cap-out.length
        let found := buf.findIdx? (· == newline)
        let maxLen := found.getD buf.length
        let realLen := min maxLen tail
        match w.consume (realLen+if found.isSome then 1 else 0) with
        | none => none
        | some w =>
          if tail < maxLen ∨ found.isSome then some (.ok (some (out++buf.take realLen)),w,t+1)
          else readLineStatic root c cap fuel (t+1) (out++buf.take realLen) w

end ReadLine

section ReadConfig

/-- The list as it grows, and the tick. -/
structure Cache where
  buf : Text
  clock : ℕ
  deriving DecidableEq, Repr

/-- The names that `expand_glob` passes on, each opened, in turn. -/
def forEachOpened (f : Text → Cache → Option (Except Errno Unit × Cache)) (root : Sysroot)
    (dir : Text) : List Text → Cache → Option (Except Errno Unit × Cache)
  | [],s => some (.ok (),s)
  | name::names,s =>
    match root.openAt dir name with
    | .error e => some (.error e,s)
    | .ok c =>
      match f c s with
      | some (.ok (),s) => forEachOpened f root dir names s
      | stopped => stopped

/-- `expand_glob`, with the opening of the file that its caller does. -/
def expandGlob (f : Text → Cache → Option (Except Errno Unit × Cache)) (root : Sysroot)
    (path : Text) (s : Cache) : Option (Except Errno Unit × Cache) :=
  let halves := splitOnce star path
  let parts := rsplitOnce slash halves.1
  match root.openRdonly parts.1,root.listing parts.1 with
  | .error e,_ => some (.error e,s)
  | _,.error e => some (.error e,s)
  | .ok _,.ok names =>
    forEachOpened f root parts.1
      (names.filter fun name => parts.2.isPrefixOf name && halves.2.isSuffixOf name) s

/-- The include of a path, with a reader of its own for each file. -/
def includePath (f : Text → World → Cache → Option (Except Errno Unit × Cache)) (root : Sysroot)
    (path : Text) (s : Cache) : Option (Except Errno Unit × Cache) :=
  match root.openRdonly path with
  | .ok sub => f sub ⟨.new,0⟩ s
  | .error e =>
    if (find star path).isSome then expandGlob (fun sub s => f sub ⟨.new,0⟩ s) root path s
    else some (.error e,s)

/-- What a round does with the line it has read, up to the next round. -/
def handleLine (f : Text → World → Cache → Option (Except Errno Unit × Cache)) (root : Sysroot)
    (c : Text) (w : World) (line : Text) (s : Cache) : Option (Except Errno Unit × Cache) :=
  let st := trimAscii (splitOnce hash line).1
  if st = [] then f c w s
  else match strip includeWord st with
    | some path =>
      match includePath f root path s with
      | some (.ok (),s) => f c w s
      | stopped => stopped
    | none => f c w ⟨appendDir s.buf st,s.clock⟩

/-- `read_config_file`, from the line the reader is at. -/
def readConfigFile (root : Sysroot) : ℕ → Text → World → Cache → Option (Except Errno Unit × Cache)
  | 0,_,_,_ => none
  | fuel+1,c,w,s =>
    match readLineStatic root c 256 fuel s.clock [] w with
    | none => none
    | some (.error e,_,t) => some (.error e,⟨s.buf,t⟩)
    | some (.ok none,_,t) =>
      match root.close t with
      | some e => some (.error e,⟨s.buf,t⟩)
      | none => some (.ok (),⟨s.buf,t⟩)
    | some (.ok (some line),w,t) => handleLine (readConfigFile root fuel) root c w line ⟨s.buf,t⟩

/-- `init_cache_slow`. -/
def initCacheSlow (root : Sysroot) (fuel : ℕ) (env : Option Text) (configPath : Text) :
    Option (Except Errno Text) :=
  let buf := (env.toList.flatMap (segments colon)).foldl appendDir []
  match root.openRdonly configPath with
  | .error _ => some (.ok buf)
  | .ok c =>
    match readConfigFile root fuel c ⟨.new,0⟩ ⟨buf,0⟩ with
    | none => none
    | some (.error e,_) => some (.error e)
    | some (.ok (),s) => some (.ok s.buf)

/-- The directories that the loop of `open_module` visits. -/
def visited (list : Text) : List Text := segments separator list

end ReadConfig

section Spec

/-- A line without its comment and the blanks around it. -/
def stripped (line : Text) : Text := trimAscii (line.takeWhile (· ≠ hash))

/-- The file that a line includes. -/
def included (line : Text) : Option Text := strip includeWord (stripped line)

/-- The lines of a file, each of which ends with a newline. -/
def linesOf (c : Text) : List Text := withoutFinalEmpty (c.splitOn newline)

/-- The directories that the lines of a file stand for, those of an included file in its place. -/
inductive Dirs (root : Sysroot) : List Text → List Text → Prop
  | nil : Dirs root [] []
  | blank {line lines ds} (hblank : stripped line = []) (hrest : Dirs root lines ds) :
      Dirs root (line::lines) ds
  | dir {line lines ds} (hline : stripped line ≠ []) (hnot : included line = none)
      (hrest : Dirs root lines ds) : Dirs root (line::lines) (stripped line::ds)
  | incl {line lines path sub es ds} (hincl : included line = some path)
      (hopen : root.openRdonly path = .ok sub) (hsub : Dirs root (linesOf sub) es)
      (hrest : Dirs root lines ds) : Dirs root (line::lines) (es++ds)

/-- A line that fits the line buffer and has no separator of the list in it. -/
structure Line (line : Text) : Prop where
  length_le : line.length ≤ 256
  separator_not_mem : separator ∉ line

/-- The files can be opened, end with a newline, consist of such lines, and include each other
without a cycle. -/
structure ConfigTree (root : Sysroot) (files : Set Text) (rank : Text → ℕ) : Prop where
  listing : ∀ path ∈ files, ∃ c, root.openRdonly path = .ok c ∧
    (c ≠ [] → c.getLast? = some newline) ∧ ∀ line ∈ linesOf c, Line line ∧
      ∀ sub, included line = some sub → sub ∈ files ∧ rank sub < rank path

/-- Reads come in pieces but do not fail, and neither do the closes. -/
structure Sysroot.Reads (root : Sysroot) : Prop where
  reply : ∀ t, ∃ n, root.reply t = .count n
  close : ∀ t, root.close t = none

/-- No read fails, whatever it hands out. -/
def Sysroot.Counts (root : Sysroot) : Prop := ∀ t, ∃ n, root.reply t = .count n

lemma linesOf_eq (c : Text) : linesOf c = segments newline c := (segments_eq_splitOn newline c).symm

lemma stripped_ne_nil {line path : Text} (h : included line = some path) : stripped line ≠ [] := by
  intro hnil
  rw [included,hnil] at h
  cases h

/-- A configuration stands for one list of directories. -/
lemma Dirs.unique {root : Sysroot} {lines ds es : List Text} (hds : Dirs root lines ds)
    (hes : Dirs root lines es) : ds = es := by
  induction hds generalizing es with
  | nil => cases hes; rfl
  | blank hblank hrest ih =>
    cases hes with
    | blank _ hrest' => exact ih hrest'
    | dir hline => exact absurd hblank hline
    | incl hincl => exact absurd hblank (stripped_ne_nil hincl)
  | dir hline hnot hrest ih =>
    cases hes with
    | blank hblank => exact absurd hblank hline
    | dir _ _ hrest' => rw [ih hrest']
    | incl hincl => rw [hnot] at hincl; cases hincl
  | incl hincl hopen hsub hrest ihsub ihrest =>
    cases hes with
    | blank hblank => exact absurd hblank (stripped_ne_nil hincl)
    | dir _ hnot => rw [hnot] at hincl; cases hincl
    | incl hincl' hopen' hsub' hrest' =>
      obtain rfl := Option.some.inj (hincl.symm.trans hincl')
      obtain rfl := Except.ok.inj (hopen.symm.trans hopen')
      rw [ihsub hsub',ihrest hrest']

end Spec

section Line

variable {root : Sysroot} {c line rest : Text} {w v : World} {cap fuel : ℕ}

lemma fillBuf_of_counts (hcounts : root.Counts) (hw : w.Valid c) (t : ℕ) :
    ∃ v, fillBuf c (root.reply t) w = (.ok v.reader.unread,v) ∧ v.Valid c ∧
      v.position = w.position ∧ (v.avail = 0 → c.length ≤ w.position) := by
  obtain ⟨n,hn⟩ := hcounts t
  rcases fillBuf_spec hw (root.reply t) with ⟨e,he,-⟩ | hfill
  · rw [hn] at he
    cases he
  · exact hfill

/-- The buffer holds a part of the line, or all of it with its end. -/
lemma unread_cases (hv : v.Valid c) (hc : c.drop v.position = line++newline::rest) :
    v.avail ≤ line.length ∨ ∃ more, v.reader.unread = line++newline::more := by
  have hunread : v.reader.unread = (line++newline::rest).take v.avail := by
    rw [hv.unread_eq,slice,hc]
  by_cases hle : v.avail ≤ line.length
  · exact .inl hle
  · obtain ⟨k,hk⟩ := Nat.exists_eq_add_of_lt (not_le.mp hle)
    rw [hk,Nat.add_assoc,List.take_append,List.take_of_length_le (by omega),
      Nat.add_sub_cancel_left] at hunread
    exact .inr ⟨rest.take k,hunread⟩

/-- The rest of the file after bytes of it were consumed. -/
lemma drop_position {u : World} {n : ℕ} (h : u.position = v.position+n) :
    c.drop u.position = (c.drop v.position).drop n := by
  rw [h,List.drop_drop]

/-- A round that finds no end of line and has room for all of the buffer takes it. -/
lemma readLineStatic_take {out : Text} {t : ℕ}
    (hfill : fillBuf c (root.reply t) w = (.ok v.reader.unread,v)) (hv : v.Valid c)
    (havail : v.avail ≠ 0) (hnot : newline ∉ v.reader.unread) (hroom : out.length+v.avail ≤ cap) :
    ∃ u, readLineStatic root c cap (fuel+1) t out w =
        readLineStatic root c cap fuel (t+1) (out++v.reader.unread) u ∧ u.Valid c ∧
      u.position = v.position+v.avail ∧ u.avail = 0 ∧ u.offset = v.offset := by
  have hnone : v.reader.unread.findIdx? (· == newline) = none := find_eq_none hnot
  obtain ⟨u,hconsume,hu,hposition,hleft,hoffset⟩ := hv.consume (le_refl v.avail)
  have hmin : min v.avail (cap-out.length) = v.avail := by omega
  have hall : v.reader.unread.take v.avail = v.reader.unread :=
    List.take_of_length_le (length_unread v).le
  refine ⟨u,?_,hu,hposition,by omega,hoffset⟩
  rw [readLineStatic]
  simp only [hfill,length_unread,if_neg havail,hnone,Option.getD_none,Option.isSome_none,hmin,
    Bool.false_eq_true,if_false,Nat.add_zero,hconsume,or_false,hall]
  exact if_neg (by omega)

/-- A round that finds a first part of a text without an end of line, and room for all of it. -/
lemma readLineStatic_part {out : Text} {t : ℕ}
    (hfill : fillBuf c (root.reply t) w = (.ok v.reader.unread,v)) (hv : v.Valid c)
    (havail : v.avail ≠ 0) (hline : newline ∉ line) (hcap : out.length+line.length ≤ cap)
    (hc : c.drop v.position = line++rest) (hle : v.avail ≤ line.length) :
    ∃ before after u, line = before++after ∧ before ≠ [] ∧
      readLineStatic root c cap (fuel+1) t out w =
        readLineStatic root c cap fuel (t+1) (out++before) u ∧ u.Valid c ∧
      c.drop u.position = after++rest ∧ u.position = v.position+before.length ∧ u.avail = 0 ∧
      u.offset = v.offset := by
  have hunread : v.reader.unread = line.take v.avail := by
    rw [hv.unread_eq,slice,hc,List.take_append_of_le_length hle]
  have hnot : newline ∉ v.reader.unread := by
    rw [hunread]
    exact fun h => hline (List.mem_of_mem_take h)
  obtain ⟨u,hround,hu,hposition,hend,hoffset⟩ :=
    readLineStatic_take hfill hv havail hnot (show out.length+v.avail ≤ cap by omega)
  refine ⟨v.reader.unread,line.drop v.avail,u,?_,?_,hround,hu,?_,?_,hend,hoffset⟩
  · rw [hunread,List.take_append_drop]
  · rw [← List.length_pos_iff,length_unread]
    omega
  · rw [drop_position hposition,hc,List.drop_append_of_le_length hle]
  · rw [length_unread,hposition]

/-- A round that finds the end of the line ends the call, with as much of the line as there is room
for. -/
lemma readLineStatic_found {out more : Text} {t : ℕ}
    (hfill : fillBuf c (root.reply t) w = (.ok v.reader.unread,v)) (hv : v.Valid c)
    (hunread : v.reader.unread = line++newline::more) (hline : newline ∉ line) :
    ∃ u, readLineStatic root c cap (fuel+1) t out w =
        some (.ok (some (out++line.take (cap-out.length))),u,t+1) ∧ u.Valid c ∧
      u.position = v.position+(min line.length (cap-out.length)+1) := by
  have hfound : v.reader.unread.findIdx? (· == newline) = some line.length := by
    rw [hunread]
    exact find_append hline
  have hlen : v.avail = line.length+(more.length+1) := by
    rw [← length_unread,hunread,List.length_append,List.length_cons]
  have havail : v.avail ≠ 0 := by omega
  obtain ⟨u,hconsume,hu,hposition,-⟩ :=
    hv.consume (show min line.length (cap-out.length)+1 ≤ v.avail by omega)
  have htake : v.reader.unread.take (min line.length (cap-out.length)) =
      line.take (cap-out.length) := by
    rw [hunread,List.take_append_of_le_length (min_le_left _ _),min_comm,← List.take_take,
      List.take_length]
  refine ⟨u,?_,hu,hposition⟩
  rw [readLineStatic]
  simp only [hfill,length_unread,if_neg havail,hfound,Option.getD_some,Option.isSome_some,if_true,
    hconsume,or_true,htake]

/-- A round that finds no end of line and more than there is room for ends the call. -/
lemma readLineStatic_full {out : Text} {t : ℕ}
    (hfill : fillBuf c (root.reply t) w = (.ok v.reader.unread,v)) (hv : v.Valid c)
    (hnot : newline ∉ v.reader.unread) (hfull : cap-out.length < v.avail) :
    ∃ u, readLineStatic root c cap (fuel+1) t out w =
        some (.ok (some (out++v.reader.unread.take (cap-out.length))),u,t+1) ∧ u.Valid c ∧
      u.position = v.position+(cap-out.length) := by
  have hnone : v.reader.unread.findIdx? (· == newline) = none := find_eq_none hnot
  have havail : v.avail ≠ 0 := by omega
  have hmin : min v.avail (cap-out.length) = cap-out.length := min_eq_right hfull.le
  obtain ⟨u,hconsume,hu,hposition,-⟩ := hv.consume hfull.le
  refine ⟨u,?_,hu,hposition⟩
  rw [readLineStatic]
  simp only [hfill,length_unread,if_neg havail,hnone,Option.getD_none,Option.isSome_none,hmin,
    Bool.false_eq_true,if_false,Nat.add_zero,hconsume,or_false]
  exact if_pos hfull

lemma readLineStatic_line (hcounts : root.Counts) {out : Text} (hline : newline ∉ line)
    (hcap : out.length+line.length ≤ cap) (hfuel : line.length < fuel) (hw : w.Valid c)
    (hc : c.drop w.position = line++newline::rest) (t : ℕ) :
    ∃ u t', readLineStatic root c cap fuel t out w = some (.ok (some (out++line)),u,t') ∧
      u.Valid c ∧ c.drop u.position = rest := by
  induction fuel generalizing line out w t with
  | zero => exact absurd hfuel (Nat.not_lt_zero _)
  | succ fuel ih =>
    obtain ⟨v,hfill,hv,hposition,hend⟩ := fillBuf_of_counts hcounts hw t
    rw [← hposition] at hc hend
    have havail : v.avail ≠ 0 := by
      intro hzero
      rw [List.drop_of_length_le (hend hzero)] at hc
      cases line <;> cases hc
    rcases unread_cases hv hc with hle | ⟨more,hunread⟩
    · obtain ⟨before,after,u,rfl,hbefore,hround,hu,hdrop,-⟩ :=
        readLineStatic_part hfill hv havail hline hcap hc hle
      have hpos := List.length_pos_iff.mpr hbefore
      rw [List.length_append] at hcap hfuel
      rw [hround,← List.append_assoc]
      refine ih (fun h => hline (List.mem_append_right _ h)) ?_ (by omega) hu hdrop (t+1)
      rw [List.length_append]
      omega
    · have hroom : line.length ≤ cap-out.length := by omega
      obtain ⟨u,hround,hu,huposition⟩ := readLineStatic_found hfill hv hunread hline
      rw [List.take_of_length_le hroom] at hround
      rw [min_eq_left hroom] at huposition
      refine ⟨u,t+1,hround,hu,?_⟩
      rw [drop_position huposition,hc,← List.drop_drop,List.drop_left]
      rfl

/-- What is left of the file without an end of line is read and not returned. -/
lemma readLineStatic_rest (hcounts : root.Counts) {out : Text} (hrest : newline ∉ rest)
    (hcap : out.length+rest.length ≤ cap) (hfuel : rest.length < fuel) (hw : w.Valid c)
    (hc : c.drop w.position = rest) (t : ℕ) :
    ∃ u t', readLineStatic root c cap fuel t out w = some (.ok none,u,t') := by
  induction fuel generalizing rest out w t with
  | zero => exact absurd hfuel (Nat.not_lt_zero _)
  | succ fuel ih =>
    obtain ⟨v,hfill,hv,hposition,-⟩ := fillBuf_of_counts hcounts hw t
    rw [← hposition] at hc
    by_cases havail : v.avail = 0
    · rw [readLineStatic]
      simp only [hfill,length_unread,if_pos havail]
      exact ⟨v,t+1,rfl⟩
    · have hle : v.avail ≤ rest.length := by
        have hlen := hv.length_slice (Nat.le_refl v.avail)
        rw [slice,hc,List.length_take] at hlen
        omega
      obtain ⟨before,after,u,rfl,hbefore,hround,hu,hdrop,-⟩ := readLineStatic_part hfill hv havail
        hrest hcap (hc.trans (List.append_nil _).symm) hle
      have hpos := List.length_pos_iff.mpr hbefore
      rw [List.length_append] at hcap hfuel
      rw [List.append_nil] at hdrop
      rw [hround]
      refine ih (fun h => hrest (List.mem_append_right _ h)) ?_ (by omega) hu hdrop (t+1)
      rw [List.length_append]
      omega

end Line

section Loading

variable {root : Sysroot}

lemma appendDir_eq (buf v : Text) : appendDir buf v = buf++(v++[separator]) := by
  have hresized : List.replicate (v.length+1) separator =
      List.replicate v.length separator++[separator] := List.replicate_succ'
  simp only [appendDir,copyToSliceHead,List.take_left,List.drop_left,hresized]
  rw [List.drop_append_of_le_length (by simp),List.drop_of_length_le (by simp),List.nil_append]

lemma foldl_appendDir (ds : List Text) (buf : Text) :
    ds.foldl appendDir buf = buf++terminated separator ds := by
  induction ds generalizing buf with
  | nil => exact (List.append_nil buf).symm
  | cons d ds ih =>
    rw [List.foldl_cons,ih,appendDir_eq,terminated_cons]
    simp

/-- From any line on, enough rounds append the directories to the list. -/
def Loads (root : Sysroot) (lines ds : List Text) : Prop :=
  ∃ bound, ∀ fuel ≥ bound, ∀ c w, World.Valid c w → c.drop w.position = terminated newline lines →
    ∀ buf t, ∃ t', readConfigFile root fuel c w ⟨buf,t⟩ =
      some (.ok (),⟨buf++terminated separator ds,t'⟩)

lemma loads_nil (hreads : root.Reads) : Loads root [] [] := by
  refine ⟨2,fun fuel hfuel c w hw hc buf t => ?_⟩
  obtain ⟨fuel,rfl⟩ := Nat.exists_eq_add_of_le' (Nat.one_le_of_lt hfuel)
  have hline : ∃ u t', readLineStatic root c 256 fuel t [] w = some (.ok none,u,t') :=
    readLineStatic_rest hreads.reply List.not_mem_nil (Nat.zero_le _) (Nat.lt_of_succ_lt_succ hfuel) hw hc t
  obtain ⟨u,t',hline⟩ := hline
  refine ⟨t',?_⟩
  rw [readConfigFile]
  simp only [hline,hreads.close t']
  simp [terminated]

/-- A file loads from a line on if what is done with the line and the lines after it does. -/
lemma loads_cons (hreads : root.Reads) {line : Text} (hnewline : newline ∉ line) (hline : Line line)
    {lines ds : List Text}
    (h : ∃ bound, ∀ fuel ≥ bound, ∀ c u, World.Valid c u →
      c.drop u.position = terminated newline lines → ∀ buf t, ∃ t',
        handleLine (readConfigFile root fuel) root c u line ⟨buf,t⟩ =
          some (.ok (),⟨buf++terminated separator ds,t'⟩)) : Loads root (line::lines) ds := by
  obtain ⟨bound,hbound⟩ := h
  refine ⟨max bound 257+1,fun fuel hfuel c w hw hc buf t => ?_⟩
  obtain ⟨fuel,rfl⟩ := Nat.exists_eq_add_of_le' (Nat.one_le_of_lt hfuel)
  rw [terminated_cons] at hc
  have hcap : ([] : Text).length+line.length ≤ 256 := by simpa using hline.length_le
  have hlong : line.length < fuel := by
    have := hline.length_le
    omega
  obtain ⟨u,t',hread,hu,hrest⟩ :=
    readLineStatic_line hreads.reply hnewline hcap hlong hw hc t
  obtain ⟨t'',hrun⟩ := hbound fuel (by omega) c u hu hrest buf t'
  refine ⟨t'',?_⟩
  rw [readConfigFile]
  simp only [hread]
  exact hrun

section Handle

variable {f : Text → World → Cache → Option (Except Errno Unit × Cache)} {c line : Text} {w : World}
  {s : Cache}

lemma stripped_eq (line : Text) : trimAscii (splitOnce hash line).1 = stripped line := by
  rw [splitOnce_fst]
  rfl

lemma handleLine_blank (h : stripped line = []) : handleLine f root c w line s = f c w s := by
  simp only [handleLine,stripped_eq,h,if_true]

lemma handleLine_dir (h : stripped line ≠ []) (hnot : included line = none) :
    handleLine f root c w line s = f c w ⟨appendDir s.buf (stripped line),s.clock⟩ := by
  unfold included at hnot
  simp only [handleLine,stripped_eq,if_neg h,hnot]

lemma handleLine_include {path sub : Text} (hincl : included line = some path)
    (hopen : root.openRdonly path = .ok sub) {t : Cache}
    (hsub : f sub ⟨.new,0⟩ s = some (.ok (),t)) :
    handleLine f root c w line s = f c w t := by
  have hne := stripped_ne_nil hincl
  unfold included at hincl
  simp only [handleLine,stripped_eq,if_neg hne,hincl,includePath,hopen,hsub]

end Handle

lemma separator_not_mem_stripped {line : Text} (h : separator ∉ line) :
    separator ∉ stripped line := by
  intro hmem
  have hdrop := ( List.rdropWhile_prefix isAsciiWhitespace _).subset hmem
  have htake := (List.dropWhile_sublist isAsciiWhitespace).subset hdrop
  exact h ((List.takeWhile_sublist _).subset htake)

/-- A file that stands for directories and loads as them. -/
def LoadsFile (root : Sysroot) (c : Text) : Prop :=
  ∃ ds, Dirs root (linesOf c) ds ∧ (∀ d ∈ ds, separator ∉ d) ∧
    terminated newline (linesOf c) = c ∧ Loads root (linesOf c) ds

/-- The lines of a file stand for directories and load as them, if the files they include do. -/
lemma exists_loads (hreads : root.Reads) {lines : List Text}
    (h : ∀ line ∈ lines, newline ∉ line ∧ Line line ∧ ∀ path, included line = some path →
      ∃ sub, root.openRdonly path = .ok sub ∧ LoadsFile root sub) :
    ∃ ds, Dirs root lines ds ∧ (∀ d ∈ ds, separator ∉ d) ∧ Loads root lines ds := by
  induction lines with
  | nil => exact ⟨[],.nil,by simp,loads_nil hreads⟩
  | cons line lines ih =>
    obtain ⟨ds,hds,hsep,bound,hbound⟩ := ih fun l hl => h l (List.mem_cons_of_mem _ hl)
    obtain ⟨hnewline,hline,hincludes⟩ := h line List.mem_cons_self
    by_cases hblank : stripped line = []
    · refine ⟨ds,.blank hblank hds,hsep,loads_cons hreads hnewline hline ⟨bound,?_⟩⟩
      intro fuel hfuel c u hu hrest buf t
      rw [handleLine_blank hblank]
      exact hbound fuel hfuel c u hu hrest buf t
    cases hincl : included line with
    | none =>
      refine ⟨_,.dir hblank hincl hds,?_,loads_cons hreads hnewline hline ⟨bound,?_⟩⟩
      · rintro d (_ | ⟨_,hd⟩)
        · exact separator_not_mem_stripped hline.separator_not_mem
        · exact hsep d hd
      · intro fuel hfuel c u hu hrest buf t
        rw [handleLine_dir hblank hincl,terminated_cons,appendDir_eq]
        obtain ⟨t',hrun⟩ := hbound fuel hfuel c u hu hrest (buf++(stripped line++[separator])) t
        exact ⟨t',by simpa using hrun⟩
    | some path =>
      obtain ⟨sub,hopen,es,hes,hsepe,hterm,boundSub,hboundSub⟩ := hincludes path hincl
      refine ⟨_,.incl hincl hopen hes hds,?_,
        loads_cons hreads hnewline hline ⟨max bound boundSub,?_⟩⟩
      · intro d hd
        exact (List.mem_append.mp hd).elim (hsepe d) (hsep d)
      · intro fuel hfuel c u hu hrest buf t
        obtain ⟨t',hsub⟩ := hboundSub fuel (by omega) sub ⟨.new,0⟩ (valid_new _ 0) hterm.symm buf t
        obtain ⟨t'',hrun⟩ := hbound fuel (by omega) c u hu hrest (buf++terminated separator es) t'
        rw [handleLine_include hincl hopen hsub,terminated_append,← List.append_assoc]
        exact ⟨t'',hrun⟩

/-- The same for a file of the tree, by induction on its rank. -/
lemma ConfigTree.loadsFile {files : Set Text} {rank : Text → ℕ} (htree : ConfigTree root files rank)
    (hreads : root.Reads) {path : Text} (hpath : path ∈ files) :
    ∃ c, root.openRdonly path = .ok c ∧ LoadsFile root c := by
  induction hn : rank path using Nat.strong_induction_on generalizing path with
  | _ n ih =>
    obtain ⟨c,hopen,hend,hlines⟩ := htree.listing path hpath
    have hload : ∃ ds, Dirs root (linesOf c) ds ∧ (∀ d ∈ ds, separator ∉ d) ∧
        Loads root (linesOf c) ds := by
      refine exists_loads hreads fun line hmem => ⟨?_,(hlines line hmem).1,fun sub hsub => ?_⟩
      · rw [linesOf_eq] at hmem
        exact not_mem_of_mem_segments hmem
      · obtain ⟨hfile,hrank⟩ := (hlines line hmem).2 sub hsub
        exact ih (rank sub) (hn ▸ hrank) hfile rfl
    obtain ⟨ds,hds,hsep,hloads⟩ := hload
    refine ⟨c,hopen,ds,hds,hsep,?_,hloads⟩
    rw [linesOf_eq]
    exact terminated_segments hend

/-- The search list is what the environment and the configuration say. -/
lemma exists_configured {files : Set Text} {rank : Text → ℕ}
    (htree : ConfigTree root files rank) (hreads : root.Reads) {configPath c : Text}
    (hconfig : configPath ∈ files) (hopen : root.openRdonly configPath = .ok c) {env : Text}
    (henv : separator ∉ env) :
    (∃ ds, Dirs root (linesOf c) ds) ∧ ∀ ds, Dirs root (linesOf c) ds →
      ∃ bound, ∀ fuel ≥ bound, ∃ list,
        initCacheSlow root fuel (some env) configPath = some (.ok list) ∧
          visited list = withoutFinalEmpty (env.splitOn colon)++ds := by
  obtain ⟨c',hopen',ds,hds,hsep,hterm,bound,hbound⟩ := htree.loadsFile hreads hconfig
  obtain rfl := Except.ok.inj (hopen.symm.trans hopen')
  refine ⟨⟨ds,hds⟩,fun es hes => ⟨bound,fun fuel hfuel => ?_⟩⟩
  rw [hes.unique hds]
  obtain ⟨t,hrun⟩ := hbound fuel hfuel c ⟨.new,0⟩ (valid_new _ 0) hterm.symm
    (terminated separator (segments colon env)) 0
  refine ⟨terminated separator (segments colon env++ds),?_,?_⟩
  · have hbuf : ((some env).toList.flatMap (segments colon)).foldl appendDir [] =
        terminated separator (segments colon env) := by
      rw [foldl_appendDir]
      simp
    simp only [initCacheSlow,hbuf,hopen,hrun,terminated_append]
  · rw [← segments_eq_splitOn]
    refine segments_terminated fun d hd => ?_
    rcases List.mem_append.mp hd with hd | hd
    · exact fun h => henv (subset_of_mem_segments hd h)
    · exact hsep d hd

end Loading

/-- The lines `/a #`, `include /d`, an empty one and `/b`. -/
def outerLines : List Text := [[0x2F,0x61,0x20,0x23],includeWord++[0x2F,0x64],[],[0x2F,0x62]]

/-- The line ` /e`. -/
def innerLines : List Text := [[0x20,0x2F,0x65]]

/-- A configuration `/c` that includes `/d` between two directories, read three bytes at a time. -/
def sampleRoot : Sysroot where
  openRdonly path :=
    if path = [0x2F,0x63] then .ok (terminated newline outerLines)
    else if path = [0x2F,0x64] then .ok (terminated newline innerLines)
    else .error 2
  listing _ := .error 2
  openAt _ _ := .error 2
  reply _ := .count 3
  close _ := none

end WinterLily.SearchList
