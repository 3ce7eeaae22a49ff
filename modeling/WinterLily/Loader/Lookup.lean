import WinterLily.Base.Effect
import WinterLily.Base.Utf8
import WinterLily.Loader.SearchList
import WinterLily.Once.Agreement

/-! The lookup of a library in `wl-ld-lilium`: `open_sysroot_rdonly` and `expand_glob` of helpers.rs,
`read_config_file`, `init_cache_slow` and `open_module` of ldso.rs, with the descriptors that are
open. Two logs are kept beside them: the texts put in buffers of a fixed size, and the kernel's
answers. -/
namespace WinterLily.Lookup
open WinterLily.Effect WinterLily.File WinterLily.Reader WinterLily.SplitAscii
open WinterLily.SearchList (Text Sysroot Cache slash star hash colon includeWord trimAscii strip
  appendDir readLineStatic visited)

abbrev Fd := ℕ

def enoent : Errno := 2
def eacces : Errno := 13

def nul : UInt8 := 0
def equals : UInt8 := 0x3D

/-- The bytes of an ASCII literal. -/
def ascii (s : String) : Text := s.toList.map fun c => UInt8.ofNat c.toNat

section Buffers

/-- `copy_to_slice_head`: what is left of the slice after the copy, or a panic. -/
def copyToSliceHead (dest src : Text) : Option Text :=
  if dest.length < src.length then none else some (dest.drop src.length)

/-- Texts copied one after the other to the head of a buffer, which then has these bytes. -/
def copyAll : Text → List Text → Option Text
  | dest,[] => some dest
  | dest,src::srcs =>
    match copyToSliceHead dest src with
    | none => none
    | some rest => (copyAll rest srcs).map (src++·)

def zeroed (size : ℕ) : Text := List.replicate size nul

/-- The bytes before the first NUL. -/
def cstr (buf : Text) : Text := buf.takeWhile (· ≠ nul)

/-- A buffer read as a C string, if there is a NUL in it. -/
def readBack (buf : Text) : Option Text := if nul ∈ buf then some (cstr buf) else none

/-- A path ended by a NUL in a buffer; the index panics when the path fills the buffer. -/
def pathBuffer (size : ℕ) (st : Text) : Option Text :=
  match copyToSliceHead (zeroed size) st with
  | none => none
  | some [] => none
  | some (_::rest) => some (st++nul::rest)

/-- The `fname` that `open_module` builds in its buffer. -/
def candidatePath (size : ℕ) (dir soname : Text) : Option Text :=
  match copyToSliceHead (zeroed size) dir with
  | none => none
  | some [] => none
  | some (_::vbuf) =>
    match copyToSliceHead vbuf soname with
    | none => none
    | some [] => none
    | some (_::rest) =>
      let buf := dir++slash::(soname++nul::rest)
      some (buf.take (size-(rest.length+1)))

lemma copyAll_eq (dest : Text) (srcs : List Text) : copyAll dest srcs =
    if dest.length < srcs.flatten.length then none
    else some (srcs.flatten++dest.drop srcs.flatten.length) := by
  induction srcs generalizing dest with
  | nil => simp [copyAll]
  | cons src srcs ih =>
    rw [copyAll]
    by_cases h : dest.length < src.length
    · have h' : dest.length < (src::srcs).flatten.length := by
        rw [List.flatten_cons,List.length_append]
        omega
      rw [copyToSliceHead,if_pos h,if_pos h']
    · rw [copyToSliceHead,if_neg h]
      simp only [ih,List.length_drop,List.flatten_cons,List.length_append]
      by_cases h' : dest.length-src.length < srcs.flatten.length
      · rw [if_pos h',if_pos (by omega),Option.map_none]
      · rw [if_neg h',if_neg (by omega),Option.map_some,List.drop_drop,List.append_assoc]

lemma pathBuffer_eq (size : ℕ) (st : Text) : pathBuffer size st =
    if st.length < size then some (st++zeroed (size-st.length)) else none := by
  rw [pathBuffer,copyToSliceHead,zeroed,List.length_replicate,List.drop_replicate]
  by_cases h : st.length < size
  · obtain ⟨n,hn⟩ : ∃ n, size-st.length = n+1 := ⟨size-st.length-1,by omega⟩
    rw [if_neg (by omega),if_pos h,hn,List.replicate_succ]
    rfl
  · rw [if_neg h]
    by_cases h' : size < st.length
    · rw [if_pos h']
    · rw [if_neg h',show size-st.length = 0 by omega]
      rfl

lemma candidatePath_eq (size : ℕ) (dir soname : Text) : candidatePath size dir soname =
    if (dir++slash::soname).length < size then some (dir++slash::soname) else none := by
  rw [candidatePath,copyToSliceHead,zeroed,List.length_replicate,List.drop_replicate,
    List.length_append,List.length_cons]
  by_cases h : dir.length < size
  · obtain ⟨n,hn⟩ : ∃ n, size-dir.length = n+1 := ⟨size-dir.length-1,by omega⟩
    rw [if_neg (by omega),hn,List.replicate_succ]
    simp only [copyToSliceHead,List.length_replicate,List.drop_replicate]
    by_cases h' : soname.length < n
    · obtain ⟨m,hm⟩ : ∃ m, n-soname.length = m+1 := ⟨n-soname.length-1,by omega⟩
      have hlen : size-(m+1) = (dir++slash::soname).length := by
        rw [List.length_append,List.length_cons]
        omega
      have htake : (dir++slash::(soname++nul::List.replicate m nul)).take
          (dir++slash::soname).length = dir++slash::soname := by
        rw [← List.cons_append,← List.append_assoc,List.take_left]
      rw [if_neg (by omega),if_pos (by omega),hm,List.replicate_succ]
      simp only [List.length_replicate]
      rw [hlen,htake]
    · rw [if_neg (show ¬ dir.length+(soname.length+1) < size by omega)]
      by_cases h'' : n < soname.length
      · rw [if_pos h'']
      · rw [if_neg h'',show n-soname.length = 0 by omega]
        rfl
  · rw [if_neg (show ¬ dir.length+(soname.length+1) < size by omega)]
    by_cases h' : size < dir.length
    · rw [if_pos h']
    · rw [if_neg h',show size-dir.length = 0 by omega]
      rfl

lemma cstr_zeroed (n : ℕ) : cstr (zeroed n) = [] := by
  cases n with
  | zero => rfl
  | succ n => exact List.takeWhile_cons_of_neg (by simp)

lemma cstr_of_notMem {text : Text} (h : nul ∉ text) : cstr text = text :=
  List.takeWhile_eq_self_iff.mpr fun _ hb => decide_eq_true fun heq => h (heq ▸ hb)

lemma cstr_append_zeroed (text : Text) (n : ℕ) : cstr (text++zeroed n) = cstr text := by
  induction text with
  | nil => exact cstr_zeroed n
  | cons b text ih =>
    by_cases hb : b = nul
    · subst hb
      simp [cstr]
    · simp only [cstr,List.cons_append,ne_eq,hb,not_false_eq_true,decide_true,
        List.takeWhile_cons_of_pos]
      exact congrArg (b::·) ih

lemma cstr_slash (rest : Text) : cstr (slash::rest) = slash::cstr rest := by
  rw [cstr,List.takeWhile_cons_of_pos (by decide),cstr]

lemma nul_notMem_cstr (buf : Text) : nul ∉ cstr buf := by
  intro h
  simpa using List.mem_takeWhile_imp h

lemma cstr_eq_self_iff (text : Text) : cstr text = text ↔ nul ∉ text :=
  ⟨fun h => h ▸ nul_notMem_cstr text,cstr_of_notMem⟩

lemma readBack_append_zeroed {n : ℕ} (text : Text) (hn : 0 < n) :
    readBack (text++zeroed n) = some (cstr text) := by
  have hmem : nul ∈ text++zeroed n :=
    List.mem_append_right _ (List.mem_replicate.mpr ⟨hn.ne',rfl⟩)
  rw [readBack,if_pos hmem,cstr_append_zeroed]

end Buffers

section State

/-- A `OnceLock` between two calls. -/
inductive Slot (V : Type*)
  | fresh
  | ready (v : V)
  | poisoned
  deriving DecidableEq, Repr

inductive SearchType
  | host
  | winter
  deriving DecidableEq, Repr

/-- The directory that `openat` is given; that of a glob has been opened under a path. -/
inductive At
  | cwd
  | sysroot (fd : Fd)
  | dir (fd : Fd) (path : Text)
  deriving DecidableEq, Repr

/-- What a file is opened for. -/
inductive Purpose
  | config
  | included (pattern : Bool)
  | directory
  | entry
  | candidate
  | override
  deriving DecidableEq, Repr

/-- What the kernel is asked and answers: the arguments of `openat`, the opening of a file, the
reading of a line, `getdents64`, the close of a configuration file, the reading of an ELF header,
and `lseek`. -/
inductive Answer
  | openat (dir : At) (path : Text)
  | opened (why : Purpose) (err : Option Errno)
  | line (err : Option Errno)
  | listed (err : Option Errno)
  | closed (top : Bool) (err : Option Errno)
  | header (content : Text) (complete : Bool)
  | rewound (err : Option Errno)
  deriving DecidableEq, Repr

/-- A text that goes through a buffer of `size` bytes, with what comes out of it as a C string or
as a slice. -/
inductive Use
  | name (size : ℕ) (text : Text) (passed : Option Text)
  | slice (size : ℕ) (text : Text) (passed : Option Text)
  deriving DecidableEq, Repr

structure OpenFile where
  dir : At
  path : Text
  offset : ℕ
  deriving DecidableEq, Repr

/-- The files, the environment and the answers of the kernel. `openFault` is an error of `openat`
that does not come from the files, `replies` are the reads of a `read_exact`, and a descriptor is
a number that is not in use. -/
structure Kernel where
  root : Sysroot
  environ : List Text
  sysrootFault : Option Errno
  openFault : ℕ → Option Errno
  dents : ℕ → Reply Errno
  replies : ℕ → List (Reply Errno)
  lseek : ℕ → Option Errno
  fresh : ℕ → (used : List Fd) → {fd : Fd // fd ∉ used}

structure Proc where
  table : List (Fd × OpenFile)
  sysroot : Slot Fd
  lists : SearchType → Slot Text
  cache : Cache
  calls : ℕ
  answers : List Answer
  uses : List Use

abbrev Act (α : Type*) := Outcome Proc α

namespace Proc

def fds (p : Proc) : List Fd := p.table.map Prod.fst

def tick (p : Proc) : Proc := { p with calls := p.calls+1 }

def atClock (t : ℕ) (p : Proc) : Proc := { p with cache := ⟨p.cache.buf,t⟩ }

def answer (a : Answer) (p : Proc) : Proc := { p with answers := p.answers++[a] }

def use (u : Use) (p : Proc) : Proc := { p with uses := p.uses++[u] }

def append (v : Text) (p : Proc) : Proc :=
  { p with cache := ⟨appendDir p.cache.buf v,p.cache.clock⟩ }

/-- The descriptor of the next file to be opened. -/
def next (k : Kernel) (p : Proc) : Fd := (k.fresh p.calls p.fds).1

def opened (k : Kernel) (dir : At) (path : Text) (p : Proc) : Proc :=
  { p with table := (p.next k,⟨dir,path,0⟩)::p.table, calls := p.calls+1 }

/-- A close, which frees the descriptor whatever it answers. -/
def closed (fd : Fd) (p : Proc) : Proc := { p with table := p.table.filter (·.1 ≠ fd) }

/-- The descriptor has been read up to this offset. -/
def moved (fd : Fd) (offset : ℕ) (p : Proc) : Proc :=
  { p with table := p.table.map fun e => if e.1 = fd then (fd,⟨e.2.dir,e.2.path,offset⟩) else e }

/-- The state with nothing in its logs. -/
def unlogged (p : Proc) : Proc := { p with answers := [], uses := [] }

def setList (search : SearchType) (l : Slot Text) (p : Proc) : Proc :=
  { p with lists := fun s => if s = search then l else p.lists s }

end Proc

end State

section Environment

/-- `get_env`; its `as_utf8` accepts every entry. -/
def getEnv (environ : List Text) (var : Text) : Option Text :=
  environ.findSome? fun e =>
    if (splitOnce equals e).1 = var then some (splitOnce equals e).2 else none

/-- `get_cenv`: an entry that is not UTF-8 ends the search, and one without a `=` cannot be sliced
after its key. -/
def getCenv : List Text → Text → Proc → Act (Option Text)
  | [],_,p => .pure none p
  | e::es,var,p =>
    if Utf8.isUtf8 (e.map UInt8.toBitVec) = false then .pure none p
    else
      let key := (splitOnce equals e).1
      if key = var then
        if e.length < key.length+1 then .panic p else .pure (some (e.drop (key.length+1))) p
      else getCenv es var p

end Environment

section Lock

variable {V : Type*} (slot : Proc → Slot V) (set : Slot V → Proc → Proc)

/-- `get_or_try_init` of a `OnceLock` kept in the state; the lock is left poisoned when the closure
returns an error. -/
def getOrTryInit (f : Proc → Act (Except Errno V)) (p : Proc) : Act (Except Errno V) :=
  match slot p with
  | .ready v => .pure (.ok v) p
  | .poisoned => .panic p
  | .fresh => (f p).andThen fun r p =>
      match r with
      | .ok v => .pure (.ok v) (set (.ready v) p)
      | .error e => .pure (.error e) (set .poisoned p)

def Slot.cell : Slot V → Once.Cell V
  | .fresh => .new
  | .ready v => ⟨Once.Flag.init,some v⟩
  | .poisoned => ⟨Once.Flag.poisoned,none⟩

def Slot.ofCell (c : Once.Cell V) : Slot V :=
  match c.val with
  | some v => .ready v
  | none => if c.isPoisoned then .poisoned else .fresh

/-- An outcome as the sequential model of the locks has it. -/
def fault {α : Type*} (o : Act α) : Except Once.Fault (α × Proc) :=
  match o.result with
  | .value a => .ok (a,o.state)
  | .panic => .error .panic
  | .running => .error .hang

/-- The lock of the sysroot and those of the lists are that of the sequential model, called through
its shared path. -/
theorem fault_getOrTryInit (hset : ∀ p, set (slot p) p = p) (f : Proc → Act (Except Errno V))
    (p : Proc) : fault (getOrTryInit slot set f p) =
      ((slot p).cell.access .shared p fun p => fault (f p)).map
        fun x => (x.1,set (.ofCell x.2.2) x.2.1) := by
  rw [getOrTryInit]
  cases hslot : slot p with
  | ready v =>
    have hp : set (.ready v) p = p := hslot ▸ hset p
    have hcell : (Slot.ready v).cell.Represents (some v) := ⟨rfl,rfl⟩
    rw [Once.Cell.access_full .shared hcell]
    simp [fault,Outcome.pure,Except.map,Slot.ofCell,Slot.cell,hp]
  | poisoned =>
    have hcell : (Slot.poisoned : Slot V).cell.lock = Once.Flag.poisoned := rfl
    rw [Once.Cell.access_poisoned .shared hcell]
    rfl
  | fresh =>
    have hcell : (Slot.fresh : Slot V).cell.Represents none := Once.Cell.new_represents
    rw [Once.Cell.access_empty .shared hcell]
    obtain ⟨result,q⟩ := f p
    cases result with
    | value r =>
      cases r with
      | ok v => rfl
      | error e =>
        have hafter : Slot.ofCell ((Slot.fresh : Slot V).cell.afterFailure .shared) = .poisoned := by
          simp [Slot.ofCell,Slot.cell,Once.Cell.new,Once.Cell.afterFailure,Once.Cell.dropBomb,
            Once.Cell.isPoisoned,Once.Flags.has,Once.Flag.poisoned]
        simp [fault,Outcome.andThen,Outcome.pure,Except.map,hafter]
    | panic => rfl
    | running => rfl

end Lock

section OpenSysroot

/-- The directory that `WL_SYSROOT` names, opened. -/
def openSysrootDir (k : Kernel) (p : Proc) : Act (Except Errno Fd) :=
  (getCenv k.environ (ascii "WL_SYSROOT") p).andThen fun path p =>
    match k.sysrootFault with
    | some e => .pure (.error e) p
    | none => .pure (.ok (p.next k)) (p.opened k .cwd (path.getD [slash]))

/-- `SYSROOT_FD`. -/
def sysrootFd (k : Kernel) : Proc → Act (Except Errno Fd) :=
  getOrTryInit Proc.sysroot (fun s p => { p with sysroot := s }) (openSysrootDir k)

/-- The content that `openat` finds. -/
def Kernel.find (k : Kernel) (t : ℕ) (dir : At) (path : Text) : Except Errno Text :=
  match k.openFault t with
  | some e => .error e
  | none =>
    match dir with
    | .cwd => k.root.openRdonly path
    | .sysroot _ => k.root.openRdonly (slash::path)
    | .dir _ parent => k.root.openAt parent path

def openat (k : Kernel) (dir : At) (path : Text) (p : Proc) : Act (Except Errno (Fd × Text)) :=
  let p := p.answer (.openat dir path)
  match k.find p.calls dir path with
  | .error e => .pure (.error e) p.tick
  | .ok c => .pure (.ok (p.next k,c)) (p.opened k dir path)

/-- `open_sysroot_rdonly` from its path buffer on. -/
def openPath (k : Kernel) (dir : At) (path : Text) (p : Proc) : Act (Except Errno (Fd × Text)) :=
  if path.head? = some slash then
    (sysrootFd k p).andTry fun fd p => openat k (.sysroot fd) (cstr (path.drop 1)) p
  else openat k dir (cstr path) p

/-- The error of an answer. -/
def errorOf {α : Type*} : Except Errno α → Option Errno
  | .ok _ => none
  | .error e => some e

def logOpened (why : Purpose) (r : Except Errno (Fd × Text)) (p : Proc) :
    Act (Except Errno (Fd × Text)) :=
  .pure r (p.answer (.opened why (errorOf r)))

/-- `open_sysroot_rdonly` with its path buffer, or the panic in filling it. -/
def openBuffered (k : Kernel) (why : Purpose) (dir : At) (st : Text) (p : Proc) :
    Option Text → Act (Except Errno (Fd × Text))
  | none => .panic (p.use (.name 256 st none))
  | some path => (openPath k dir path (p.use (.name 256 st (readBack path)))).andThen (logOpened why)

/-- `open_sysroot_rdonly`. -/
def openSysrootRdonly (k : Kernel) (why : Purpose) (dir : At) (st : Text) (p : Proc) :
    Act (Except Errno (Fd × Text)) :=
  openBuffered k why dir st p (pathBuffer 256 st)

end OpenSysroot

section Config

/-- `getdents64`, into a buffer that holds at most 170 entries. -/
def Kernel.getdents (k : Kernel) (t : ℕ) (dir : Text) (off : ℕ) : Except Errno (List Text) :=
  match k.root.listing dir with
  | .error e => .error e
  | .ok names => File.read names off 170 (k.dents t)

/-- A reader of a configuration file, from its descriptor; the flag tells the file that
`init_cache_slow` opens from an included one. -/
abbrev ReadFile := Bool → Fd → Text → World → Proc → Act (Except Errno Unit)

/-- The closure that `read_config_file` passes to `expand_glob`, for the names in turn. -/
def forEachEntry (k : Kernel) (f : ReadFile) (dirfd : Fd) (dir : Text) :
    List Text → Proc → Act (Except Errno Unit)
  | [],p => .pure (.ok ()) p
  | name::names,p =>
    ((openSysrootRdonly k .entry (.dir dirfd dir) name p).andTry fun file p =>
      f false file.1 file.2 ⟨.new,0⟩ p).andTry fun _ p => forEachEntry k f dirfd dir names p

/-- The loop of `expand_glob`, from the entry at `off`. -/
def listEntries (k : Kernel) (f : ReadFile) (dirfd : Fd) (dir : Text) (suits : Text → Bool) :
    ℕ → ℕ → Proc → Act (Except Errno Unit)
  | 0,_,p => .running p
  | rounds+1,off,p =>
    match k.getdents p.calls dir off with
    | .error e => .pure (.error e) (p.tick.answer (.listed (some e)))
    | .ok names =>
      if names.length = 0 then .pure (.ok ()) (p.tick.answer (.listed none))
      else (forEachEntry k f dirfd dir (names.filter suits) (p.tick.answer (.listed none))).andTry
        fun _ p => listEntries k f dirfd dir suits rounds (off+names.length) p

/-- `expand_glob`. -/
def expandGlob (k : Kernel) (rounds : ℕ) (f : ReadFile) (path : Text) (p : Proc) :
    Act (Except Errno Unit) :=
  let halves := splitOnce star path
  let parts := rsplitOnce slash halves.1
  (openSysrootRdonly k .directory .cwd parts.1 p).andTry fun file p =>
    (listEntries k f file.1 parts.1
      (fun name => parts.2.isPrefixOf name && halves.2.isSuffixOf name) rounds 0 p).andThen
        fun res p => .pure res (p.closed file.1)

/-- The include of a path. -/
def includePath (k : Kernel) (rounds : ℕ) (f : ReadFile) (path : Text) (p : Proc) :
    Act (Except Errno Unit) :=
  let pattern := (find star path).isSome
  (openSysrootRdonly k (.included pattern) .cwd path p).andThen fun r p =>
    match r with
    | .ok file => f false file.1 file.2 ⟨.new,0⟩ p
    | .error e => if pattern then expandGlob k rounds f path p else .pure (.error e) p

/-- The close at the end of `read_config_file`. -/
def closeConfig (k : Kernel) (top : Bool) (fd : Fd) (p : Proc) : Act (Except Errno Unit) :=
  match k.root.close p.cache.clock with
  | some e => .pure (.error e) ((p.closed fd).answer (.closed top (some e)))
  | none => .pure (.ok ()) ((p.closed fd).answer (.closed top none))

/-- `read_config_file`, from the line the reader is at. Its early returns leave the descriptor. -/
def readConfigFile (k : Kernel) : ℕ → ReadFile
  | 0,_,_,_,_,p => .running p
  | fuel+1,top,fd,c,w,p =>
    match readLineStatic k.root c 256 fuel p.cache.clock [] w with
    | none => .running p
    | some (.error e,_,t) => .pure (.error e) ((p.atClock t).answer (.line (some e)))
    | some (.ok none,_,t) => closeConfig k top fd (p.atClock t)
    | some (.ok (some line),w,t) =>
      let st := trimAscii (splitOnce hash line).1
      if st = [] then readConfigFile k fuel top fd c w (p.atClock t)
      else match strip includeWord st with
        | some path => (includePath k fuel (readConfigFile k fuel) path (p.atClock t)).andTry
            fun _ p => readConfigFile k fuel top fd c w p
        | none => readConfigFile k fuel top fd c w ((p.atClock t).append st)

end Config

section OpenModule

def SearchType.envName : SearchType → Text
  | .host => ascii "LD_LIBRARY_PATH_WL_HOST"
  | .winter => ascii "LD_LIBRARY_PATH_WL_LILIUM"

def SearchType.configPath (environ : List Text) : SearchType → Text
  | .host => (getEnv environ (ascii "WL_NATIVE_LD_SO_CONF")).getD (ascii "/etc/ld.so.conf")
  | .winter => (getEnv environ (ascii "WL_SYSROOT_LD_SO_CONF")).getD (ascii "/etc/ld-lilium.so.conf")

/-- `init_cache_slow`. -/
def initCacheSlow (k : Kernel) (fuel : ℕ) (envName configPath : Text) (p : Proc) :
    Act (Except Errno Text) :=
  let buf := ((getEnv k.environ envName).toList.flatMap (segments colon)).foldl appendDir []
  (openSysrootRdonly k .config .cwd configPath { p with cache := ⟨buf,p.cache.clock⟩ }).andThen
    fun r p =>
      match r with
      | .ok file => (readConfigFile k fuel true file.1 file.2 ⟨.new,0⟩ p).andTry
          fun _ p => .pure (.ok p.cache.buf) p
      | .error _ => .pure (.ok p.cache.buf) p

/-- `__LDSO_HOST_SEARCH_LIST` and `__LDSO_LILIUM_SEARCH_LIST`. -/
def searchList (k : Kernel) (fuel : ℕ) (search : SearchType) : Proc → Act (Except Errno Text) :=
  getOrTryInit (fun p => p.lists search) (fun s p => p.setList search s)
    (initCacheSlow k fuel search.envName (search.configPath k.environ))

/-- `ElfHost::EI_CLASS` and `EM_HOST`, for a 64-bit x86 host whose header has 64 bytes. -/
def hostClass : UInt8 := 2
def hostMachine : Text := [0x3E,0x00]

/-- What comes of a file that could be opened. -/
inductive Verdict
  | rejected
  | failed (e : Errno)
  | accepted
  deriving DecidableEq, Repr

/-- `rd.seek(Start(0))?`, after a header that suits the host. -/
def rewind (k : Kernel) (fd : Fd) (c : Text) (w : World) (p : Proc) : Act Verdict :=
  match seek c (.start 0) (k.lseek p.calls) w with
  | (.error e,_) => .pure (.failed e) (p.tick.answer (.rewound (some e)))
  | (.ok _,w) => .pure .accepted ((p.tick.moved fd w.offset).answer (.rewound none))

/-- The header read from a candidate; one that does not suit is dropped with its reader. -/
def probe (k : Kernel) (fd : Fd) (c : Text) (p : Proc) : Act Verdict :=
  match readExact c (k.replies p.calls) 16 [] ⟨.new,0⟩ with
  | none => .running p
  | some (.error _,w) => .pure .rejected ((p.tick.moved fd w.offset).answer (.header c false))
  | some (.ok ident,w) =>
    if ident[4]? ≠ some hostClass then
      .pure .rejected ((p.tick.moved fd w.offset).answer (.header c true))
    else
      match readExact c (k.replies (p.calls+1)) 48 [] w with
      | none => .running p.tick
      | some (.error _,w) =>
        .pure .rejected ((p.tick.tick.moved fd w.offset).answer (.header c false))
      | some (.ok rest,w) =>
        if slice (ident++rest) 18 2 ≠ hostMachine then
          .pure .rejected ((p.tick.tick.moved fd w.offset).answer (.header c true))
        else rewind k fd c w ((p.tick.tick.moved fd w.offset).answer (.header c true))

/-- A candidate that has been opened or not, and the round after it. -/
def judge (k : Kernel) (next : Proc → Act (Except Errno Fd)) :
    Except Errno (Fd × Text) → Proc → Act (Except Errno Fd)
  | .ok file,p => (probe k file.1 file.2 p).andThen fun verdict p =>
      match verdict with
      | .rejected => next p
      | .failed e => .pure (.error e) p
      | .accepted => .pure (.ok file.1) p
  | .error e,p => if e = enoent ∨ e = eacces then next p else .pure (.error e) p

def tryCandidate (k : Kernel) (next : Proc → Act (Except Errno Fd)) (p : Proc) :
    Option Text → Act (Except Errno Fd)
  | none => .panic p
  | some fname => (openSysrootRdonly k .candidate .cwd fname p).andThen (judge k next)

/-- The loop of `open_module` over the directories. -/
def tryCandidates (k : Kernel) (soname : Text) : List Text → Proc → Act (Except Errno Fd)
  | [],p => .pure (.error enoent) p
  | dir::dirs,p => tryCandidate k (tryCandidates k soname dirs)
      (p.use (.slice 4095 (dir++slash::soname) (candidatePath 4096 dir soname)))
      (candidatePath 4096 dir soname)

/-- `open_module`. -/
def openModule (k : Kernel) (fuel : ℕ) (search : SearchType) (soname : Text) (p : Proc) :
    Act (Except Errno Fd) :=
  (searchList k fuel search p).andTry fun list p => tryCandidates k soname (visited list) p

end OpenModule

section Sysroot

variable {k : Kernel} {p : Proc}

lemma equals_mem_iff (e : Text) : equals ∈ e ↔ ¬ e.length < (splitOnce equals e).1.length+1 := by
  rcases text_cases equals e with rfl | ⟨hne,hmem⟩ | ⟨key,value,rfl,hkey⟩
  · simp [splitOnce,SplitAscii.next]
  · simp [splitOnce,next_last hmem hne,hmem]
  · rw [splitOnce,next_append hkey]
    simp

/-- The entry that `get_cenv` finds. -/
def cenvEntry : List Text → Text → Option Text
  | [],_ => none
  | e::es,var =>
    if Utf8.isUtf8 (e.map UInt8.toBitVec) = false then none
    else if (splitOnce equals e).1 = var then some e else cenvEntry es var

lemma getCenv_of_none {es : List Text} {var : Text} (h : cenvEntry es var = none) (p : Proc) :
    getCenv es var p = .pure none p := by
  induction es with
  | nil => rfl
  | cons e es ih =>
    simp only [cenvEntry] at h
    simp only [getCenv]
    split_ifs at h ⊢
    · rfl
    · exact ih h

lemma getCenv_of_some {es : List Text} {var e : Text} (h : cenvEntry es var = some e) (p : Proc) :
    getCenv es var p =
      if equals ∈ e then .pure (some (e.drop (var.length+1))) p else .panic p := by
  induction es with
  | nil => cases h
  | cons e' es ih =>
    simp only [cenvEntry] at h
    simp only [getCenv]
    by_cases hutf : Utf8.isUtf8 (e'.map UInt8.toBitVec) = false
    · rw [if_pos hutf] at h
      cases h
    rw [if_neg hutf] at h ⊢
    by_cases hkey : (splitOnce equals e').1 = var
    · rw [if_pos hkey] at h ⊢
      cases h
      simp only [equals_mem_iff,ite_not,hkey]
    · rw [if_neg hkey] at h ⊢
      exact ih h

/-- The entry of `WL_SYSROOT`, if it is found, has a value. -/
def Kernel.NamesSysroot (k : Kernel) : Prop :=
  ∀ e, cenvEntry k.environ (ascii "WL_SYSROOT") = some e → equals ∈ e

/-- `get_cenv` reads the environment and nothing else. -/
lemma getCenv_sysroot (k : Kernel) (p : Proc) :
    (¬ k.NamesSysroot ∧ getCenv k.environ (ascii "WL_SYSROOT") p = .panic p) ∨
    (k.NamesSysroot ∧ ∃ v, getCenv k.environ (ascii "WL_SYSROOT") p = .pure v p) := by
  cases hentry : cenvEntry k.environ (ascii "WL_SYSROOT") with
  | none =>
    refine .inr ⟨fun e he => ?_,none,getCenv_of_none hentry p⟩
    rw [hentry] at he
    cases he
  | some e =>
    rw [getCenv_of_some hentry]
    split_ifs with he
    · refine .inr ⟨fun e' he' => ?_,_,rfl⟩
      rw [hentry] at he'
      exact Option.some.inj he' ▸ he
    · exact .inl ⟨fun h => he (h e hentry),rfl⟩

/-- The ways in which the lookup of the sysroot ends. -/
inductive SysrootOutcome (k : Kernel) (p : Proc) : Act (Except Errno Fd) → Prop
  | known {fd} (hslot : p.sysroot = .ready fd) : SysrootOutcome k p (.pure (.ok fd) p)
  | stopped (hslot : p.sysroot = .poisoned ∨ p.sysroot = .fresh ∧ ¬ k.NamesSysroot) :
      SysrootOutcome k p (.panic p)
  | failed {e} (hslot : p.sysroot = .fresh ∧ k.NamesSysroot) (hfault : k.sysrootFault = some e) :
      SysrootOutcome k p (.pure (.error e) { p with sysroot := .poisoned })
  | opened {path} (hslot : p.sysroot = .fresh ∧ k.NamesSysroot) (hfault : k.sysrootFault = none) :
      SysrootOutcome k p (.pure (.ok (p.next k))
        { p.opened k .cwd path with sysroot := .ready (p.next k) })

lemma sysrootFd_outcome (k : Kernel) (p : Proc) : SysrootOutcome k p (sysrootFd k p) := by
  rw [sysrootFd,getOrTryInit]
  cases hslot : p.sysroot with
  | ready fd => exact .known hslot
  | poisoned => exact .stopped (.inl hslot)
  | fresh =>
    simp only [openSysrootDir]
    rcases getCenv_sysroot k p with ⟨henv,hget⟩ | ⟨henv,v,hget⟩
    · rw [hget,Outcome.panic_andThen,Outcome.panic_andThen]
      exact .stopped (.inr ⟨hslot,henv⟩)
    · rw [hget,Outcome.pure_andThen]
      cases hfault : k.sysrootFault with
      | some e => exact .failed ⟨hslot,henv⟩ hfault
      | none => exact .opened ⟨hslot,henv⟩ hfault

end Sysroot

section Open

variable {k : Kernel} {why : Purpose} {dir : At} {st : Text} {p : Proc}

/-- The path buffer of a text that fits it. -/
def Use.path (st : Text) : Use := .name 256 st (some (cstr st))

/-- The arguments with which `open_sysroot_rdonly` comes to its `openat`, and the state there. -/
inductive Reaches (k : Kernel) (dir : At) (st : Text) (p : Proc) : At → Text → Proc → Prop
  | relative (hhead : st.head? ≠ some slash) : Reaches k dir st p dir (cstr st) (p.use (.path st))
  | known {rest fd} (hst : st = slash::rest) (hslot : p.sysroot = .ready fd) :
      Reaches k dir st p (.sysroot fd) (cstr rest) (p.use (.path st))
  | opened {rest path} (hst : st = slash::rest) (hslot : p.sysroot = .fresh ∧ k.NamesSysroot)
      (hfault : k.sysrootFault = none) : Reaches k dir st p (.sysroot (p.next k)) (cstr rest)
        { (p.use (.path st)).opened k .cwd path with sysroot := .ready (p.next k) }

/-- The ways in which `open_sysroot_rdonly` ends. -/
inductive OpenOutcome (k : Kernel) (why : Purpose) (dir : At) (st : Text) (p : Proc) :
    Act (Except Errno (Fd × Text)) → Prop
  | long (h : ¬ st.length < 256) :
      OpenOutcome k why dir st p (.panic (p.use (.name 256 st none)))
  | stopped (h : st.length < 256) (hhead : st.head? = some slash)
      (hslot : p.sysroot = .poisoned ∨ p.sysroot = .fresh ∧ ¬ k.NamesSysroot) :
      OpenOutcome k why dir st p (.panic (p.use (.path st)))
  | unopenable {e} (h : st.length < 256) (hhead : st.head? = some slash)
      (hslot : p.sysroot = .fresh ∧ k.NamesSysroot) (hfault : k.sysrootFault = some e) :
      OpenOutcome k why dir st p (.pure (.error e)
        (Proc.answer (.opened why (some e)) { p.use (.path st) with sysroot := .poisoned }))
  | refused {at' path q e} (h : st.length < 256) (hq : Reaches k dir st p at' path q)
      (hfind : k.find q.calls at' path = .error e) : OpenOutcome k why dir st p
        (.pure (.error e) ((q.answer (.openat at' path)).tick.answer (.opened why (some e))))
  | found {at' path q c} (h : st.length < 256) (hq : Reaches k dir st p at' path q)
      (hfind : k.find q.calls at' path = .ok c) : OpenOutcome k why dir st p
        (.pure (.ok (q.next k,c))
          (((q.answer (.openat at' path)).opened k at' path).answer (.opened why none)))

lemma Reaches.uses {at' : At} {path : Text} {q : Proc} (hq : Reaches k dir st p at' path q) :
    q.uses = p.uses++[.path st] := by
  cases hq <;> rfl

lemma head_append_zeroed (st : Text) (n : ℕ) :
    (st++zeroed n).head? = some slash ↔ st.head? = some slash := by
  cases st with
  | nil =>
    cases n with
    | zero => rfl
    | succ n => simp [zeroed,List.replicate_succ,nul,slash]
  | cons b st => rfl

lemma eq_cons_of_head {b : UInt8} (h : st.head? = some b) : ∃ rest, st = b::rest := by
  cases st with
  | nil => cases h
  | cons c rest => exact ⟨rest,by rw [Option.some.inj h]⟩

/-- The outcome of the `openat` that the lookup comes to. -/
lemma Reaches.outcome {at' : At} {path : Text} {q : Proc} (hlen : st.length < 256)
    (hq : Reaches k dir st p at' path q) :
    OpenOutcome k why dir st p ((openat k at' path q).andThen (logOpened why)) := by
  rw [openat]
  have hcalls : (q.answer (.openat at' path)).calls = q.calls := rfl
  rw [hcalls]
  cases hfind : k.find q.calls at' path with
  | error e => exact .refused hlen hq hfind
  | ok c => exact .found hlen hq hfind

lemma openSysrootRdonly_outcome (k : Kernel) (why : Purpose) (dir : At) (st : Text) (p : Proc) :
    OpenOutcome k why dir st p (openSysrootRdonly k why dir st p) := by
  rw [openSysrootRdonly,pathBuffer_eq]
  by_cases hlen : st.length < 256
  · rw [if_pos hlen,openBuffered,readBack_append_zeroed st (by omega),openPath]
    by_cases hhead : st.head? = some slash
    · obtain ⟨rest,rfl⟩ := eq_cons_of_head hhead
      rw [if_pos ((head_append_zeroed _ _).mpr hhead),List.cons_append,List.drop_one,List.tail_cons,
        cstr_append_zeroed]
      have hout := sysrootFd_outcome k (p.use (.path (slash::rest)))
      change OpenOutcome k why dir (slash::rest) p (((sysrootFd k
        (p.use (.path (slash::rest)))).andTry _).andThen _)
      generalize sysrootFd k (p.use (.path (slash::rest))) = o at hout ⊢
      cases hout with
      | known hslot => exact Reaches.outcome hlen (.known rfl hslot)
      | stopped hslot => exact .stopped hlen hhead hslot
      | failed hslot hfault => exact .unopenable hlen hhead hslot hfault
      | opened hslot hfault => exact Reaches.outcome hlen (.opened rfl hslot hfault)
    · rw [if_neg (fun h => hhead ((head_append_zeroed _ _).mp h)),cstr_append_zeroed]
      exact Reaches.outcome hlen (.relative hhead)
  · rw [if_neg hlen]
    exact .long hlen

end Open

section Beneath

/-- The calls of `openat`. -/
def Answer.request : Answer → Option (At × Text)
  | .openat dir path => some (dir,path)
  | _ => none

def Proc.requests (p : Proc) : List (At × Text) := p.answers.filterMap Answer.request

/-- An absolute path is looked up by a relative one in the sysroot, and any other as it is in the
directory given. -/
def StaysBeneath (dir : At) (st : Text) : Prop :=
  ∀ k why (p : Proc), p.answers = [] →
    let q := (openSysrootRdonly k why dir st p).state
    if st.head? = some slash then
      ∀ r ∈ q.requests, (∃ fd, r.1 = .sysroot fd ∧ q.sysroot = .ready fd) ∧ r.2.head? ≠ some slash
    else q.requests = [(dir,st)]

variable {k : Kernel} {why : Purpose} {dir : At} {st : Text} {p : Proc}

lemma requests_opened (err : Option Errno) :
    (p.answer (.opened why err)).requests = p.requests := by
  simp [Proc.requests,Proc.answer,Answer.request]

lemma requests_openat (path : Text) :
    (p.answer (.openat dir path)).requests = p.requests++[(dir,path)] := by
  simp [Proc.requests,Proc.answer,Answer.request]

lemma Reaches.requests {at' : At} {path : Text} {q : Proc} (hq : Reaches k dir st p at' path q) :
    q.requests = p.requests := by
  cases hq <;> rfl

/-- What `open_sysroot_rdonly` asks, if it comes to ask anything. -/
lemma requests_openSysrootRdonly (k : Kernel) (why : Purpose) (dir : At) (p : Proc)
    (hlen : st.length < 256) :
    let q := (openSysrootRdonly k why dir st p).state
    (q.requests = p.requests ∧ st.head? = some slash ∧ ∀ fd, p.sysroot ≠ .ready fd) ∨
      ∃ at' path u, Reaches k dir st p at' path u ∧ q.sysroot = u.sysroot ∧
        q.requests = p.requests++[(at',path)] := by
  have hout := openSysrootRdonly_outcome k why dir st p
  generalize openSysrootRdonly k why dir st p = o at hout ⊢
  cases hout with
  | long h => exact absurd hlen h
  | stopped _ hhead hslot =>
    refine .inl ⟨rfl,hhead,?_⟩
    rcases hslot with hslot | ⟨hslot,-⟩ <;> simp [hslot]
  | unopenable _ hhead hslot => exact .inl ⟨requests_opened _,hhead,by simp [hslot.1]⟩
  | refused _ hq | found _ hq =>
    refine .inr ⟨_,_,_,hq,rfl,?_⟩
    rw [← hq.requests]
    exact (requests_opened _).trans (requests_openat _)

/-- An absolute path loses one slash, so a second one makes it absolute again. -/
lemma head_tail_iff {rest : Text} :
    rest.head? = some slash ↔ [slash,slash] <+: slash::rest := by
  cases rest with
  | nil => simp
  | cons b rest => simp [List.cons_prefix_cons,eq_comm]

lemma double_slash_iff (d soname : Text) : [slash,slash] <+: d++slash::soname ↔
    d = [slash] ∨ [slash,slash] <+: d ∨ d = [] ∧ soname.head? = some slash := by
  cases d with
  | nil =>
    rw [List.nil_append,← head_tail_iff]
    simp
  | cons a d =>
    cases d with
    | nil => simp [List.cons_prefix_cons,eq_comm]
    | cons b d => simp [List.cons_prefix_cons]

lemma staysBeneath_of_single (hlen : st.length < 256) (hnul : nul ∉ st)
    (hst : ¬ [slash,slash] <+: st) : StaysBeneath dir st := by
  intro k why p hp
  have hreq : p.requests = [] := by rw [Proc.requests,hp]; rfl
  rcases requests_openSysrootRdonly k why dir p hlen with ⟨hq,hhead,-⟩ | ⟨at',path,u,hu,hslot,hq⟩
  · simp only [hhead,if_pos,hq,hreq,List.not_mem_nil,false_imp_iff,implies_true]
  · rw [hreq,List.nil_append] at hq
    have hsingle : ∀ {rest}, st = slash::rest → (cstr rest).head? ≠ some slash := by
      rintro rest rfl hhead
      rw [cstr_of_notMem fun h => hnul (List.mem_cons_of_mem _ h)] at hhead
      exact hst (head_tail_iff.mp hhead)
    cases hu with
    | relative hhead => simp only [if_neg hhead,hq,cstr_of_notMem hnul]
    | known hst' hready =>
      simp only [hq,List.mem_singleton,forall_eq,hslot]
      subst hst'
      exact ⟨⟨_,rfl,hready⟩,hsingle rfl⟩
    | opened hst' hfresh =>
      simp only [hq,List.mem_singleton,forall_eq,hslot]
      subst hst'
      exact ⟨⟨_,rfl,rfl⟩,hsingle rfl⟩

lemma sum_notMem (used : List Fd) : used.sum+1 ∉ used :=
  fun h => Nat.not_succ_le_self _ (List.le_sum_of_mem h)

/-- A kernel without files, whose calls on descriptors succeed. -/
def emptyKernel : Kernel where
  root := ⟨fun _ => .error enoent,fun _ => .error enoent,fun _ _ => .error enoent,
    fun _ => .count 128,fun _ => none⟩
  environ := []
  sysrootFault := none
  openFault := fun _ => none
  dents := fun _ => .count 1
  replies := fun _ => List.replicate 64 (.count 64)
  lseek := fun _ => none
  fresh := fun _ used => ⟨used.sum+1,sum_notMem used⟩

/-- A process that has not looked up anything. -/
def Proc.start : Proc := ⟨[],.fresh,fun _ => .fresh,⟨[],0⟩,0,[],[]⟩

lemma not_staysBeneath_of_double (hlen : st.length < 256) (hnul : nul ∉ st)
    (hst : [slash,slash] <+: st) : ¬ StaysBeneath dir st := by
  intro h
  obtain ⟨rest,rfl⟩ := hst
  let p : Proc := { Proc.start with sysroot := .ready 3 }
  have hp := h emptyKernel .candidate p rfl
  rcases requests_openSysrootRdonly emptyKernel .candidate dir p hlen with
    ⟨-,-,hslot⟩ | ⟨at',path,u,hu,hslot,hq⟩
  · exact hslot 3 rfl
  · simp only [hq] at hp
    cases hu with
    | relative hhead => exact hhead rfl
    | known hst' hready =>
      cases hst'
      rw [cstr_of_notMem fun h => hnul (List.mem_cons_of_mem _ h)] at hp
      exact (hp _ (List.mem_singleton_self _)).2 rfl
    | opened hst' hfresh => cases hfresh.1

/-- The paths that stay beneath the sysroot. -/
theorem staysBeneath_iff (dir : At) {st : Text} (hlen : st.length < 256) (hnul : nul ∉ st) :
    (StaysBeneath dir st ↔ ¬ [slash,slash] <+: st) ∧
      ∀ d soname, st = d++slash::soname → candidatePath 4096 d soname = some st ∧
        ([slash,slash] <+: st ↔ d = [slash] ∨ [slash,slash] <+: d ∨
          d = [] ∧ soname.head? = some slash) := by
  refine ⟨⟨fun h hst => not_staysBeneath_of_double hlen hnul hst h,
    staysBeneath_of_single hlen hnul⟩,?_⟩
  rintro d soname rfl
  rw [candidatePath_eq,if_pos (by omega)]
  exact ⟨rfl,double_slash_iff d soname⟩

theorem staysBeneath_iff_lib : (StaysBeneath .cwd (ascii "/lib/libc.so") ↔
    ¬ [slash,slash] <+: ascii "/lib/libc.so") ∧ ¬ [slash,slash] <+: ascii "/lib/libc.so" :=
  ⟨(staysBeneath_iff .cwd (by decide) (by decide)).1,by decide⟩

/-- The search directory `/` takes a lookup out of the sysroot. -/
theorem root_directory_escapes : candidatePath 4096 [slash] (ascii "libc.so") =
    some (ascii "//libc.so") ∧ ¬ StaysBeneath .cwd (ascii "//libc.so") := by
  refine ⟨?_,not_staysBeneath_of_double (by decide) (by decide) (by decide)⟩
  rw [candidatePath_eq,if_pos (by decide)]
  rfl

end Beneath

end WinterLily.Lookup
