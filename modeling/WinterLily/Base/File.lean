import Mathlib.Data.BitVec
import Mathlib.Data.List.Basic

/-! A file that is read through an offset. The kernel may hand out fewer bytes than asked for, but
none only at the end; a reply names the count it has in mind, and `count` makes it one of those. On
top, the calls of a cursor that has no buffer, as a relation between its positions. -/
namespace WinterLily.File

variable {α ε : Type*}

section Slice

/-- The `n` elements from `i` on, or as many as there are. -/
def slice (c : List α) (i n : ℕ) : List α := (c.drop i).take n

variable (c : List α) (i m n : ℕ)

@[simp] theorem slice_zero : slice c i 0 = [] := List.take_zero

@[simp] theorem length_slice : (slice c i n).length = min n (c.length-i) := by
  rw [slice,List.length_take,List.length_drop]

theorem take_slice : (slice c i n).take m = slice c i (min m n) := List.take_take

theorem drop_slice : (slice c i n).drop m = slice c (i+m) (n-m) := by
  rw [slice,slice,List.drop_take,List.drop_drop]

theorem slice_add : slice c i (m+n) = slice c i m++slice c (i+m) n := by
  rw [slice,slice,slice,List.take_add,List.drop_drop]

end Slice

section Kernel

/-- What the kernel answers to a `read`. -/
inductive Reply (ε : Type*)
  | error (e : ε)
  | count (n : ℕ)
  deriving DecidableEq, Repr

/-- The count that is handed out. -/
def count (c : List α) (off cap n : ℕ) : ℕ := min (max n 1) (min cap (c.length-off))

def read (c : List α) (off cap : ℕ) : Reply ε → Except ε (List α)
  | .error e => .error e
  | .count n => .ok (slice c off (count c off cap n))

theorem count_le (c : List α) (off cap n : ℕ) : count c off cap n ≤ c.length-off := by
  unfold count
  omega

theorem length_slice_count (c : List α) (off cap n : ℕ) :
    (slice c off (count c off cap n)).length = count c off cap n := by
  rw [length_slice,Nat.min_eq_left (count_le c off cap n)]

theorem count_eq_zero {c : List α} {off cap n : ℕ} (h : count c off cap n = 0) (hcap : 0 < cap) :
    c.length ≤ off := by
  unfold count at h
  omega

inductive Whence
  | set
  | cur
  | ending
  deriving DecidableEq, Repr

def Whence.target (size off : ℕ) (n : ℤ) : Whence → ℤ
  | .set => n
  | .cur => off+n
  | .ending => size+n

/-- `lseek`; a reply is an error of the file itself, and `inval` the one for an offset outside the
type. -/
def lseek (inval : ε) (size off : ℕ) (n : ℤ) (whence : Whence) (reply : Option ε) : Except ε ℕ :=
  match reply with
  | some e => .error e
  | none =>
    if 0 ≤ whence.target size off n ∧ whence.target size off n < 2^63 then
      .ok (whence.target size off n).toNat
    else .error inval

theorem lseek_ok_iff {inval : ε} {size off q : ℕ} {n : ℤ} {whence : Whence} {reply : Option ε} :
    lseek inval size off n whence reply = .ok q ↔
      reply = none ∧ 0 ≤ whence.target size off n ∧ whence.target size off n < 2^63 ∧
        (q : ℤ) = whence.target size off n := by
  cases reply with
  | some e => simp [lseek]
  | none =>
    simp only [lseek,true_and]
    split_ifs with htarget
    · simp only [Except.ok.injEq]
      omega
    · simp only [false_iff]
      exact fun h => htarget ⟨h.1,h.2.1⟩

end Kernel

section Cursor

inductive SeekFrom
  | start (n : BitVec 64)
  | ending (n : BitVec 64)
  | current (n : BitVec 64)
  deriving DecidableEq, Repr

inductive Call
  | read (k : ℕ)
  | readExact (k : ℕ)
  | fillBuf
  | consume (n : ℕ)
  | seek (f : SeekFrom)
  deriving DecidableEq, Repr

inductive Answer (α ε : Type*)
  | bytes (bs : List α)
  | position (q : ℕ)
  | done
  | error (e : ε)
  deriving DecidableEq, Repr

/-- Where a seek leads from position `p`. -/
def SeekFrom.target (size p : ℕ) : SeekFrom → ℤ
  | .start n => n.toNat
  | .ending n => size+n.toInt
  | .current n => p+n.toInt

/-- Without a buffer, a call at position `p` gets this answer and leaves position `q`. -/
def CursorStep (c : List α) (p : ℕ) : Call → Answer α ε → ℕ → Prop
  | .read k,.bytes bs,q => bs = slice c p bs.length ∧ bs.length ≤ k ∧
      (bs = [] → k = 0 ∨ c.length ≤ p) ∧ q = p+bs.length
  | .readExact k,.bytes bs,q => bs = slice c p k ∧ bs.length = k ∧ q = p+k
  | .fillBuf,.bytes bs,q => bs = slice c p bs.length ∧ (bs = [] → c.length ≤ p) ∧ q = p
  | .consume n,.done,q => q = p+n
  | .seek f,.position r,q => (r : ℤ) = f.target c.length p ∧ q = r
  | _,.error _,q => q = p
  | _,_,_ => False

end Cursor

end WinterLily.File
