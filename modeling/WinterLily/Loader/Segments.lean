import WinterLily.Base.Memory
import WinterLily.Base.Task
import WinterLily.Loader.Basic

/-! `FdLoader::map_phdrs`, `read_offset` and `alloc_base_addr`. A process is its memory, the page
protections as the requests issued so far leave them, and the position of the file read from; the
kernel decides which system calls succeed and how much a read returns. -/
namespace WinterLily.Loader
open WinterLily.Memory

abbrev Prot := BitVec 32

namespace Prot

def read : Prot := 0x1#32
def write : Prot := 0x2#32
def exec : Prot := 0x4#32

def has (p flag : Prot) : Bool := p &&& flag != 0#32

/-- Writable and executable at once. -/
def isWX (p : Prot) : Bool := has p write && has p exec

end Prot

namespace Pf

def x : BitVec 32 := 0x1#32
def w : BitVec 32 := 0x2#32

end Pf

/-- The fields of an `ElfPhdr` that the loader and its callers rely on. -/
structure Phdr where
  pFlags : BitVec 32
  pOffset : Usize
  pVaddr : Usize
  pPaddr : Usize
  pFilesz : Usize
  pMemsz : Usize
  deriving DecidableEq, Repr

structure File where
  size : ℕ
  byte : ℕ → Byte

/-- The byte a mapping shows: zero past the end of the file. -/
def File.at (f : File) (n : ℕ) : Byte := if n < f.size then f.byte n else 0#8

inductive Syscall
  | mmap
  | mprotect
  deriving DecidableEq, Repr

/-- A request to change protections, with the kernel's answer. -/
structure Request where
  call : Syscall
  addr : Usize
  len : Usize
  prot : Prot
  granted : Bool
  deriving DecidableEq, Repr

/-- What a request does to the protection of the page of each address. -/
def Request.apply (r : Request) (prot : Usize → Prot) : Usize → Prot := fun x =>
  if r.granted ∧ (x-r.addr).toNat < Align.up r.len.toNat 4096 then r.prot else prot x

def replay (prot : Usize → Prot) (log : List Request) : Usize → Prot :=
  log.foldl (fun p r => r.apply p) prot

inductive SearchType
  | host
  | winter
  deriving DecidableEq, Repr

structure Proc where
  mem : Mem 64
  prot0 : Usize → Prot
  log : List Request
  pos : ℕ
  calls : ℕ
  bases : SearchType → Usize

def Proc.prot (p : Proc) : Usize → Prot := replay p.prot0 p.log

/-- The answers of the kernel, by the number of the call. -/
structure Kernel where
  ok : ℕ → Bool
  count : ℕ → ℕ

/-- Why a function does not return normally: an error, `todo!()`, or a write to a page that is not
writable. -/
inductive Stop
  | error (e : Error)
  | panicked
  | faulted
  deriving DecidableEq, Repr

abbrev Loading := Task Stop Proc

section Calls

variable (k : Kernel) (f : File)

/-- An `mmap` or `mprotect`, with the error its failure maps to. -/
def issue (call : Syscall) (addr len : Usize) (prot : Prot) (e : Error) : Loading Unit := fun p =>
  let granted := k.ok p.calls
  let p := { p with calls := p.calls+1, log := p.log++[⟨call,addr,len,prot,granted⟩] }
  if granted then (.ok (),p) else (.error (.error e),p)

def mprotect (addr len : Usize) (prot : Prot) : Loading Unit :=
  issue k .mprotect addr len prot .loadError

def modifyMem (g : Mem 64 → Mem 64) : Loading Unit := fun p => (.ok (),{ p with mem := g p.mem })

/-- A fixed private mapping of the file. -/
def mmapFile (addr len : Usize) (prot : Prot) (offset : Usize) : Loading Unit := do
  issue k .mmap addr len prot .loadError
  modifyMem fun m => m.fill addr (Align.up len.toNat 4096) fun i => f.at (offset.toNat+i)

/-- `write_bytes(addr, 0, n)`. -/
def writeBytes (addr n : Usize) : Loading Unit := fun p =>
  if ∀ i, i < n.toNat → (p.prot (addr+BitVec.ofNat 64 i)).has Prot.write = true then
    (.ok (),{ p with mem := p.mem.fill addr n.toNat fun _ => 0#8 })
  else (.error .faulted,p)

def lseek (off : Usize) : Loading Unit := fun p =>
  if k.ok p.calls then (.ok (),{ p with calls := p.calls+1, pos := off.toNat })
  else (.error (.error .readError),{ p with calls := p.calls+1 })

/-- What a successful read of `len` bytes returns: some of what is left of the file, and nothing
only at its end. -/
def readCount (p : Proc) (len : ℕ) : ℕ :=
  let left := min len (f.size-p.pos)
  if left = 0 then 0 else max 1 (min (k.count p.calls) left)

lemma readCount_le (p : Proc) (len : ℕ) : readCount k f p len ≤ len := by
  unfold readCount
  dsimp only
  split_ifs <;> omega

/-- The loop of `read_offset`, with `len` bytes to go at `addr`. -/
def readLoop (addr : Usize) (len : ℕ) : Loading Unit := fun p =>
  if _hlen : len = 0 then (.ok (),p)
  else if k.ok p.calls then
    let num := readCount k f p len
    if _hnum : num = 0 then (.error (.error .readError),{ p with calls := p.calls+1 })
    else
      readLoop (addr+BitVec.ofNat 64 num) (len-num)
        { p with
          calls := p.calls+1
          pos := p.pos+num
          mem := p.mem.fill addr num fun i => f.byte (p.pos+i) }
  else (.error (.error .readError),{ p with calls := p.calls+1 })
termination_by len

def readOffset (off addr : Usize) (len : ℕ) : Loading Unit := do
  lseek k off
  readLoop k f addr len

end Calls

def permsOf (pFlags : BitVec 32) : Prot :=
  if pFlags &&& Pf.w != 0#32 then Prot.read ||| Prot.write
  else if pFlags &&& Pf.x != 0#32 then Prot.read ||| Prot.exec
  else Prot.read

/-- `last_addr` and `last_perms`. -/
structure Last where
  addr : Usize
  perms : Prot
  deriving DecidableEq, Repr

/-- `addr`, `len`, `file_len` and `offset`. -/
structure Cursor where
  addr : Usize
  len : Usize
  fileLen : Usize
  offset : Usize
  deriving DecidableEq, Repr

def saturatingSub (a b : Usize) : Usize := if a < b then 0#64 else a-b

section Phdrs

variable (k : Kernel) (f : File)

/-- The branch for a segment that starts on the last page of the one before. -/
def sharePage (last : Last) (ph : Phdr) (perms : Prot) (c : Cursor) : Loading Cursor := do
  let lastPg := pageDown last.addr
  mprotect k lastPg 4096#64 (Prot.read ||| Prot.write)
  let size := min (pageUp c.addr-c.addr).toNat c.fileLen.toNat
  readOffset k f ph.pOffset c.addr size
  mprotect k lastPg 4096#64 (perms ||| last.perms)
  pure ⟨pageUp c.addr,saturatingSub c.len 4096#64,saturatingSub c.fileLen 4096#64,pageUp c.offset⟩

/-- The branch that maps the file. -/
def mapFile (ph : Phdr) (perms : Prot) (c : Cursor) : Loading Last := do
  if c.addr &&& 4095#64 ≠ ph.pOffset &&& 4095#64 then Task.stop .panicked
  else
    let fOffset := pageDown c.offset
    let extraLen := c.offset-fOffset
    mmapFile k f (pageDown c.addr) (extraLen+c.fileLen) (Prot.read ||| Prot.write) fOffset
    let fileStart := pageDown c.addr
    writeBytes fileStart (c.addr-fileStart)
    let fileEnd := c.addr+c.fileLen
    let stop := c.addr+c.len
    writeBytes fileEnd (stop-fileEnd)
    mprotect k (pageDown c.addr) (extraLen+c.len) perms
    pure ⟨stop-1#64,perms⟩

/-- The header starts no later than the last page mapped. -/
def shares (base : Usize) (last : Last) (ph : Phdr) : Prop :=
  pageDown (base+ph.pPaddr) ≤ pageDown last.addr

instance (base : Usize) (last : Last) (ph : Phdr) : Decidable (shares base last ph) :=
  inferInstanceAs (Decidable (_ ≤ _))

def firstPage (base : Usize) (last : Last) (ph : Phdr) : Loading Cursor :=
  let c : Cursor := ⟨base+ph.pPaddr,ph.pMemsz,ph.pFilesz,ph.pOffset⟩
  if shares base last ph then sharePage k f last ph (permsOf ph.pFlags) c else pure c

def otherPages (last : Last) (ph : Phdr) (c : Cursor) : Loading Last :=
  if c.fileLen > 0#64 then mapFile k f ph (permsOf ph.pFlags) c else pure last

/-- One round of the loop. -/
def mapPhdr (base : Usize) (last : Last) (ph : Phdr) : Loading Last := do
  let c ← firstPage k f base last ph
  otherPages k f last ph c

def mapLoop (base : Usize) : Last → List Phdr → Loading Unit
  | _,[] => pure ()
  | last,ph::phs => do
    let last ← mapPhdr k f base last ph
    mapLoop base last phs

def mapPhdrs (phdr : List Phdr) (base : Usize) : Loading Usize := do
  mapLoop k f base ⟨0#64,0#32⟩ phdr
  pure base

/-- `alloc_base_addr`: a fresh zeroed region, after the ones given out before. -/
def allocBaseAddr (search : SearchType) (maxPma : Usize) : Loading Usize := do
  let length := pageUp maxPma
  let addr ← fun p => (.ok (p.bases search),
    { p with bases := Function.update p.bases search (p.bases search+length) })
  issue k .mmap addr length (Prot.read ||| Prot.write) .allocError
  modifyMem fun m => m.fill addr (Align.up length.toNat 4096) fun _ => 0#8
  pure addr

end Phdrs

/-- Every call succeeds. -/
def Kernel.Willing (k : Kernel) : Prop := ∀ n, k.ok n = true

/-- A willing kernel that returns as little of a read as it can. -/
def Kernel.willing : Kernel := ⟨fun _ => true,fun _ => 0⟩

/-- When the file has the bytes, the loop reads all of them, however short the single reads. -/
theorem readLoop_ok {k : Kernel} (hk : k.Willing) (f : File) (addr : Usize) {len : ℕ} {p : Proc}
    (hlen : len ≤ 2^64) (hf : p.pos+len ≤ f.size) :
    ∃ p', readLoop k f addr len p = (.ok (),p') ∧ p'.prot0 = p.prot0 ∧ p'.log = p.log ∧
      p'.mem = p.mem.fill addr len fun i => f.byte (p.pos+i) := by
  induction len using Nat.strong_induction_on generalizing addr p with
  | _ len ih =>
    rw [readLoop]
    dsimp only
    by_cases h₀ : len = 0
    · subst h₀
      rw [dif_pos rfl]
      refine ⟨p,rfl,rfl,rfl,?_⟩
      funext x
      simp [Mem.fill]
    · let num := readCount k f p len
      have hle : num ≤ len := readCount_le k f p len
      have hpos : num ≠ 0 := by
        change readCount k f p len ≠ 0
        unfold readCount
        dsimp only
        split_ifs <;> omega
      rw [dif_neg h₀,if_pos (hk _),dif_neg hpos]
      obtain ⟨p',hp',h₁,h₂,h₃⟩ := ih (len-num) (by omega) (addr+BitVec.ofNat 64 num)
        (p := { p with
          calls := p.calls+1
          pos := p.pos+num
          mem := p.mem.fill addr num fun i => f.byte (p.pos+i) }) (by omega)
        (by change p.pos+num+(len-num) ≤ _; omega)
      refine ⟨p',hp',h₁,h₂,?_⟩
      rw [h₃,Memory.fill_fill _ _ _ _ (by omega),Nat.add_sub_cancel' hle]
      congr 1
      funext i
      by_cases hi : i < num
      · rw [if_pos hi]
      · rw [if_neg hi,Nat.add_assoc,Nat.add_sub_cancel' (Nat.le_of_not_lt hi)]

section Willing
open WinterLily.Task

variable {k : Kernel} (hk : k.Willing)
include hk

lemma issue_ok (call : Syscall) (addr len : Usize) (prot : Prot) (e : Error) (p : Proc) :
    issue k call addr len prot e p =
      (.ok (),{ p with calls := p.calls+1, log := p.log++[⟨call,addr,len,prot,true⟩] }) := by
  unfold issue
  dsimp only
  rw [hk p.calls,if_pos rfl]

lemma mprotect_ok (addr len : Usize) (prot : Prot) (p : Proc) :
    mprotect k addr len prot p =
      (.ok (),{ p with calls := p.calls+1, log := p.log++[⟨.mprotect,addr,len,prot,true⟩] }) :=
  issue_ok hk .mprotect addr len prot .loadError p

lemma readOffset_ok (f : File) (off addr : Usize) {len : ℕ} (p : Proc)
    (hlen : len ≤ 2^64) (hf : off.toNat+len ≤ f.size) :
    ∃ p', readOffset k f off addr len p = (.ok (),p') ∧ p'.prot0 = p.prot0 ∧ p'.log = p.log ∧
      p'.mem = p.mem.fill addr len fun i => f.byte (off.toNat+i) := by
  have hseek : lseek k off p = (.ok (),{ p with calls := p.calls+1, pos := off.toNat }) := by
    unfold lseek
    rw [if_pos (hk _)]
  obtain ⟨p',hp',h⟩ := readLoop_ok hk f addr hlen
    (p := { p with calls := p.calls+1, pos := off.toNat }) hf
  refine ⟨p',?_,h⟩
  unfold readOffset
  rw [bind_ok hseek,hp']

/-- The bytes that still fit the page are read; the rest of the segment is left to the caller. -/
lemma sharePage_ok {f : File} (last : Last) (ph : Phdr) (perms : Prot) (c : Cursor) (p : Proc)
    (hf : ph.pOffset.toNat+min (pageUp c.addr-c.addr).toNat c.fileLen.toNat ≤ f.size) :
    ∃ p', sharePage k f last ph perms c p =
        (.ok ⟨pageUp c.addr,saturatingSub c.len 4096#64,saturatingSub c.fileLen 4096#64,
          pageUp c.offset⟩,p') ∧ p'.prot0 = p.prot0 ∧
      p'.log = p.log++[⟨.mprotect,pageDown last.addr,4096#64,Prot.read ||| Prot.write,true⟩,
        ⟨.mprotect,pageDown last.addr,4096#64,perms ||| last.perms,true⟩] ∧
      p'.mem = p.mem.fill c.addr (min (pageUp c.addr-c.addr).toNat c.fileLen.toNat)
        fun i => f.byte (ph.pOffset.toNat+i) := by
  have hsize : min (pageUp c.addr-c.addr).toNat c.fileLen.toNat ≤ 2^64 := by
    have := c.fileLen.isLt
    omega
  have hopen := mprotect_ok hk (pageDown last.addr) 4096#64 (Prot.read ||| Prot.write) p
  obtain ⟨q,hread,h₀,hlog,hmem⟩ := readOffset_ok hk f ph.pOffset c.addr { p with
    calls := p.calls+1
    log := p.log++[⟨.mprotect,pageDown last.addr,4096#64,Prot.read ||| Prot.write,true⟩] }
    hsize hf
  have hclose := mprotect_ok hk (pageDown last.addr) 4096#64 (perms ||| last.perms) q
  refine ⟨{ q with
    calls := q.calls+1
    log := q.log++[⟨.mprotect,pageDown last.addr,4096#64,perms ||| last.perms,true⟩] },
    ?_,h₀,?_,hmem⟩
  · unfold sharePage
    dsimp only
    rw [bind_ok hopen,bind_ok hread,bind_ok hclose]
    rfl
  · change q.log++_ = _
    rw [hlog,List.append_assoc]
    rfl

end Willing

end WinterLily.Loader
