import WinterLily.Access.Copy
import WinterLily.Signals.Actions
import Mathlib.Logic.Function.Basic

/-! Checked memory accesses: `__checked_memcpy_impl` and its signal handler in
`c/signal_support/x86_64.c`, and the functions of `helpers.rs` built on them. -/
namespace WinterLily.Access
open WinterLily.Memory
open WinterLily.Signals (sigbus sigchld sigkill sigquit sigsegv sigsys)

/-- The signal that a fault raises. -/
def faultSignal : Fault → ℕ
  | .segv => sigsegv
  | .bus => sigbus

/-- A `jmp_buf`, identified by the frame it returns to. -/
abbrev JmpBuf := ℕ

/-- What a thread's accesses can change: the two thread-local slots, the `addr` fields of the
`CheckedAccessError` records by their address, and memory. -/
structure Thread where
  retbuf : Option JmpBuf
  error : Word
  accAddr : Word → Word
  mem : Mem 64

/-- How a handler ends. -/
inductive Handled
  | jump (buf : JmpBuf) (t : Thread)
  | resumed (t : Thread)
  | killed (sig : ℕ)

/-- `exit_unrecoverably` in the handler for a signal: `SIGQUIT` with its default action ends the
process. The handler for `SIGQUIT` itself has that blocked and is ended by `SIGKILL`. -/
def exitUnrecoverably (sig : ℕ) : Handled := .killed (if sig = sigquit then sigkill else sigquit)

/-- `__sa_handler_seh_impl`: anything but a trapped system call or a child's end is fatal. -/
def saHandlerSehImpl (t : Thread) (sig : ℕ) : Handled :=
  if sig = sigsys then .resumed t
  else if sig = sigchld then .resumed t
  else exitUnrecoverably sig

def saHandlerImpl (t : Thread) (sig : ℕ) (siAddr : Word) : Handled :=
  if sig = sigsegv ∨ sig = sigbus then
    match t.retbuf with
    | some buf =>
      let acc := t.error
      .jump buf
        { t with accAddr := Function.update t.accAddr acc siAddr, error := acc+16#64 }
    | none => saHandlerSehImpl t sig
  else saHandlerSehImpl t sig

/-- How a call ends; a handler that returns to a faulting instruction runs it again. -/
inductive Outcome (α : Type*)
  | returned (v : α) (t : Thread)
  | killed (sig : ℕ)
  | elsewhere (buf : JmpBuf)
  | stuck

def Outcome.andThen {α β : Type*} (x : Outcome α) (f : α → Thread → Outcome β) : Outcome β :=
  match x with
  | .returned v t => f v t
  | .killed sig => .killed sig
  | .elsewhere buf => .elsewhere buf
  | .stuck => .stuck

/-- `__checked_memcpy_impl`, called in `frame`. The value stored in `CHECKED_ACCESS_RETBUF` before
the copy is `NULL`. -/
def checkedMemcpyImpl (p : Perms 64) (frame : JmpBuf) (t : Thread) (dest src len acc : Word) :
    Outcome ℤ :=
  let t := { t with error := acc }
  let t := { t with retbuf := none }
  match memcpyExplicit p dest src len t.mem with
  | .ok mem => .returned 0 { t with mem := mem, retbuf := none }
  | .error (trap,mem) =>
    match saHandlerImpl { t with mem := mem } (faultSignal trap.fault) trap.addr with
    | .jump buf t => if buf = frame then .returned (-1) { t with retbuf := none } else .elsewhere buf
    | .killed sig => .killed sig
    | .resumed _ => .stuck

inductive AccessType
  | read
  | write
  | overlap
  deriving DecidableEq, Repr

structure CheckedAccessError where
  ptr : Word
  accessTy : AccessType
  deriving DecidableEq, Repr

/-- `(a..a.wrapping_add(n)).contains(&b)`. -/
def inRange (a n b : Word) : Bool := a ≤ b && b < a+n

/-- `copy_nonoverlapping_checked` for elements of `size` bytes; `err` is the address of its local
record, which starts out zeroed. -/
def copyNonoverlappingChecked (p : Perms 64) (frame : JmpBuf) (t : Thread)
    (src dest elems size err : Word) : Outcome (Except CheckedAccessError Unit) :=
  if inRange src (elems*size) dest then .returned (.error ⟨dest,.overlap⟩) t
  else if inRange dest (elems*size) src then .returned (.error ⟨src,.overlap⟩) t
  else
    let t := { t with accAddr := Function.update t.accAddr err 0#64 }
    (checkedMemcpyImpl p frame t dest src (elems*size) err).andThen fun v t =>
      if v < 0 then .returned (.error ⟨t.accAddr err,.read⟩) t else .returned (.ok ()) t

/-- `read_checked` of a value of `size` bytes into the local at `data`. -/
def readChecked (p : Perms 64) (frame : JmpBuf) (t : Thread) (src data size err : Word) :
    Outcome (Except CheckedAccessError (List Byte)) :=
  (copyNonoverlappingChecked p frame t src data 1#64 size err).andThen fun r t =>
    .returned (r.map fun _ => (List.range size.toNat).map fun i => t.mem (data+BitVec.ofNat 64 i)) t

/-- `write_checked` of the value of `size` bytes in the local at `val`. -/
def writeChecked (p : Perms 64) (frame : JmpBuf) (t : Thread) (dest val size err : Word) :
    Outcome (Except CheckedAccessError Unit) :=
  copyNonoverlappingChecked p frame t val dest 1#64 size err

/-- With no recovery point armed a memory fault is fatal. -/
lemma saHandlerImpl_unarmed {t : Thread} (h : t.retbuf = none) (f : Fault) (a : Word) :
    saHandlerImpl t (faultSignal f) a = .killed sigquit := by
  unfold saHandlerImpl
  rw [h]
  cases f <;> rfl

/-- The copy either gets through or takes the process with it. -/
lemma checkedMemcpyImpl_ok {p : Perms 64} {frame : JmpBuf} {t : Thread} {dest src len acc : Word}
    {m : Mem 64} (h : memcpyExplicit p dest src len t.mem = .ok m) :
    checkedMemcpyImpl p frame t dest src len acc =
      .returned 0 { t with error := acc, mem := m, retbuf := none } := by
  simp only [checkedMemcpyImpl,h]

lemma checkedMemcpyImpl_trap {p : Perms 64} {frame : JmpBuf} {t : Thread}
    {dest src len acc : Word} {e : Trap 64 × Mem 64}
    (h : memcpyExplicit p dest src len t.mem = .error e) :
    checkedMemcpyImpl p frame t dest src len acc = .killed sigquit := by
  obtain ⟨trap,m⟩ := e
  have hh := saHandlerImpl_unarmed (t := { t with error := acc, retbuf := none, mem := m }) rfl
    trap.fault trap.addr
  simp only [checkedMemcpyImpl,h,hh]

/-- What `__checked_memcpy_impl` owes its caller: -1 and the faulting address when the copy traps,
0 when it does not. -/
def CopyReports (p : Perms 64) (frame : JmpBuf) (t : Thread) (dest src len acc : Word) : Prop :=
  (∀ trap m, memcpyExplicit p dest src len t.mem = .error (trap,m) →
    ∃ t', checkedMemcpyImpl p frame t dest src len acc = .returned (-1) t' ∧
      t'.accAddr acc = trap.addr) ∧
  (∀ m, memcpyExplicit p dest src len t.mem = .ok m →
    ∃ t', checkedMemcpyImpl p frame t dest src len acc = .returned 0 t')

lemma copyReports_iff (p : Perms 64) (frame : JmpBuf) (t : Thread) (dest src len acc : Word) :
    CopyReports p frame t dest src len acc ↔
      (⟨dest,src,len⟩ : Regs).Open p (covered len.toNat) := by
  obtain ⟨hok,herr⟩ := memcpyExplicit_covers p dest src len t.mem
  constructor
  · intro h
    by_contra hn
    obtain ⟨⟨trap,m⟩,he⟩ := herr hn
    obtain ⟨t',ht',-⟩ := h.1 trap m he
    rw [checkedMemcpyImpl_trap he] at ht'
    contradiction
  · intro h
    obtain ⟨m,hm⟩ := hok h
    refine ⟨fun trap m' he => ?_,fun m' _ => ⟨_,checkedMemcpyImpl_ok hm⟩⟩
    rw [hm] at he
    contradiction

/-- The two ranges of `n` bytes overlap, as the code tests it. -/
def Overlaps (a b n : Word) : Prop := inRange a n b = true ∨ inRange b n a = true

/-- The call comes back, with an error exactly when the access is not permitted. -/
def ReportsError {α : Type*} (x : Outcome (Except CheckedAccessError α)) (permitted : Prop) :
    Prop :=
  ∃ r t, x = .returned r t ∧ ((∃ e, r = .error e) ↔ ¬ permitted)

section Copy

variable {p : Perms 64} (frame : JmpBuf) (t : Thread) {src dest size : Word} (err : Word)

lemma copy_overlap (h : Overlaps src dest size) :
    ∃ e, copyNonoverlappingChecked p frame t src dest 1#64 size err = .returned (.error e) t := by
  unfold copyNonoverlappingChecked
  rw [BitVec.one_mul]
  by_cases h₁ : inRange src size dest = true
  · exact ⟨_,by rw [if_pos h₁]⟩
  · have h₂ : inRange dest size src = true := h.resolve_left h₁
    exact ⟨_,by rw [if_neg h₁,if_pos h₂]⟩

lemma copy_open (hn : ¬ Overlaps src dest size)
    (h : (⟨dest,src,size⟩ : Regs).Open p (covered size.toNat)) :
    ∃ t', copyNonoverlappingChecked p frame t src dest 1#64 size err = .returned (.ok ()) t' := by
  obtain ⟨h₁,h₂⟩ := not_or.mp hn
  obtain ⟨m,hm⟩ := (memcpyExplicit_covers p dest src size t.mem).1 h
  unfold copyNonoverlappingChecked
  rw [BitVec.one_mul,if_neg h₁,if_neg h₂]
  dsimp only
  rw [checkedMemcpyImpl_ok (t := { t with accAddr := Function.update t.accAddr err 0#64 }) hm]
  exact ⟨_,rfl⟩

lemma copy_closed (hn : ¬ Overlaps src dest size)
    (h : ¬ (⟨dest,src,size⟩ : Regs).Open p (covered size.toNat)) :
    ∃ sig, copyNonoverlappingChecked p frame t src dest 1#64 size err = .killed sig := by
  obtain ⟨h₁,h₂⟩ := not_or.mp hn
  obtain ⟨e,he⟩ := (memcpyExplicit_covers p dest src size t.mem).2 h
  unfold copyNonoverlappingChecked
  rw [BitVec.one_mul,if_neg h₁,if_neg h₂]
  dsimp only
  rw [checkedMemcpyImpl_trap (t := { t with accAddr := Function.update t.accAddr err 0#64 }) he]
  exact ⟨_,rfl⟩

/-- Reading back `r` at the end of a copy keeps what was said about errors. -/
lemma copy_reports_iff {α : Type*} (f : Thread → α) {user : Prop}
    (hall : user → (⟨dest,src,size⟩ : Regs).Open p (covered size.toNat)) :
    ReportsError ((copyNonoverlappingChecked p frame t src dest 1#64 size err).andThen
        fun r t => .returned (r.map fun _ => f t) t) (¬ Overlaps src dest size ∧ user) ↔
      Overlaps src dest size ∨ user := by
  by_cases ho : Overlaps src dest size
  · obtain ⟨e,he⟩ := copy_overlap (p := p) frame t err ho
    refine iff_of_true ⟨.error e,t,by rw [he]; rfl,?_⟩ (.inl ho)
    exact iff_of_true ⟨e,rfl⟩ fun h => h.1 ho
  · by_cases hopen : (⟨dest,src,size⟩ : Regs).Open p (covered size.toNat)
    · obtain ⟨t',ht'⟩ := copy_open frame t err ho hopen
      rw [ht']
      constructor
      · rintro ⟨r,u,hr,hiff⟩
        cases hr
        refine .inr (by_contra fun hu => ?_)
        obtain ⟨e,he⟩ := hiff.mpr fun h => hu h.2
        cases he
      · rintro (h | hu)
        · exact absurd h ho
        · exact ⟨_,_,rfl,iff_of_false (by rintro ⟨e,he⟩; cases he) fun h => h ⟨ho,hu⟩⟩
    · obtain ⟨sig,hs⟩ := copy_closed frame t err ho hopen
      rw [hs]
      refine iff_of_false ?_ ?_
      · rintro ⟨r,u,hr,-⟩
        cases hr
      · rintro (h | hu)
        · exact ho h
        · exact hopen (hall hu)

end Copy

/-- A checked copy reports as it should exactly when none of the bytes it gets to is closed. A
checked read or write, whose own local is accessible, does so exactly when the two overlap or every
byte of the access is permitted. -/
theorem checked_access_iff (p : Perms 64) (frame : JmpBuf) (t : Thread) :
    (∀ dest src len acc, CopyReports p frame t dest src len acc ↔
      (⟨dest,src,len⟩ : Regs).Open p (covered len.toNat)) ∧
    (∀ src data size err, p.Allows .write data size.toNat →
      (ReportsError (readChecked p frame t src data size err)
          (¬ Overlaps src data size ∧ p.Allows .read src size.toNat) ↔
        Overlaps src data size ∨ p.Allows .read src size.toNat)) ∧
    (∀ dest val size err, p.Allows .read val size.toNat →
      (ReportsError (writeChecked p frame t dest val size err)
          (¬ Overlaps val dest size ∧ p.Allows .write dest size.toNat) ↔
        Overlaps val dest size ∨ p.Allows .write dest size.toNat)) := by
  refine ⟨fun dest src len acc => copyReports_iff p frame t dest src len acc,?_,?_⟩
  · intro src data size err hlocal
    apply copy_reports_iff
    intro hread
    exact ⟨Allows.mono hread (covered_le _),Allows.mono hlocal (covered_le _)⟩
  · intro dest val size err hlocal
    have hopen : p.Allows .write dest size.toNat →
        (⟨dest,val,size⟩ : Regs).Open p (covered size.toNat) := fun hwrite =>
      ⟨Allows.mono hlocal (covered_le _),Allows.mono hwrite (covered_le _)⟩
    have h := copy_reports_iff frame t err (fun _ => ()) hopen
    have hid : (copyNonoverlappingChecked p frame t val dest 1#64 size err).andThen
        (fun r t => .returned (r.map fun _ => ()) t) =
        copyNonoverlappingChecked p frame t val dest 1#64 size err := by
      cases copyNonoverlappingChecked p frame t val dest 1#64 size err with
      | returned r t => cases r <;> rfl
      | _ => rfl
    rwa [hid] at h

/-- One page that may not be touched. -/
def guardPage : Perms 64 := fun _ a => if 0x1000#64 ≤ a ∧ a < 0x2000#64 then some .segv else none

def calmThread : Thread := ⟨none,0#64,fun _ => 0#64,fun _ => 0#8⟩

theorem checked_access_iff_guardPage :
    guardPage.Allows .write 0x8000#64 (4#64).toNat ∧
      (ReportsError (readChecked guardPage 0 calmThread 0x3000#64 0x8000#64 4#64 0x9000#64)
          (¬ Overlaps 0x3000#64 0x8000#64 4#64 ∧ guardPage.Allows .read 0x3000#64 (4#64).toNat) ↔
        Overlaps 0x3000#64 0x8000#64 4#64 ∨ guardPage.Allows .read 0x3000#64 (4#64).toNat) := by
  have hlocal : guardPage.Allows .write 0x8000#64 (4#64).toNat := by decide
  exact ⟨hlocal,(checked_access_iff guardPage 0 calmThread).2.1 _ _ _ _ hlocal⟩

/-- Reading one byte of the closed page kills the process instead of returning -1. -/
theorem checked_read_kills :
    checkedMemcpyImpl guardPage 0 calmThread 0x8000#64 0x1000#64 1#64 0x9000#64 =
        .killed sigquit ∧
      ¬ CopyReports guardPage 0 calmThread 0x8000#64 0x1000#64 1#64 0x9000#64 ∧
      readChecked guardPage 0 calmThread 0x1000#64 0x8000#64 1#64 0x9000#64 = .killed sigquit := by
  refine ⟨rfl,fun h => ?_,rfl⟩
  have hopen := (copyReports_iff _ _ _ _ _ _ _).mp h
  exact absurd (hopen.1 0 (by decide)) (by decide)

end WinterLily.Access
