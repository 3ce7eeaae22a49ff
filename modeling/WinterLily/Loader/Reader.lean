import WinterLily.Base.File
import WinterLily.Base.Transition

/-! `BufFdReader` of `wl-ld-lilium/src/io.rs`, which reads a descriptor through a buffer of 128
bytes, beside a cursor without a buffer on the same file. -/
namespace WinterLily.Reader
open WinterLily.File WinterLily.Transition

abbrev Byte := UInt8

abbrev Errno := ℕ

def eintr : Errno := 4
def einval : Errno := 22
def enodata : Errno := 61

/-- `BufFdReader`; the first `len` bytes of its array are kept. -/
structure BufFdReader where
  buf : List Byte
  pos : ℕ
  pos_le : pos ≤ buf.length
  deriving DecidableEq, Repr

namespace BufFdReader

def new : BufFdReader := ⟨[],0,le_rfl⟩

def len (r : BufFdReader) : ℕ := r.buf.length

/-- `buf()`. -/
def unread (r : BufFdReader) : List Byte := r.buf.drop r.pos

/-- `consume`; the sum wraps before it is compared, and past the buffer the call panics. -/
def consume (amt : ℕ) (r : BufFdReader) : Option BufFdReader :=
  let pos := (r.pos+amt) % 2^64
  if h : pos ≤ r.buf.length then some ⟨r.buf,pos,h⟩ else none

end BufFdReader

/-- A reader and the offset of the descriptor it reads. -/
structure World where
  reader : BufFdReader
  offset : ℕ
  deriving DecidableEq, Repr

section Calls

variable (c : List Byte)

def World.consume (amt : ℕ) (w : World) : Option World :=
  (w.reader.consume amt).map fun r => ⟨r,w.offset⟩

/-- The reader after the kernel handed it bytes. -/
def World.load (bs : List Byte) (w : World) : World := ⟨⟨bs,0,Nat.zero_le _⟩,w.offset+bs.length⟩

/-- `fill_buf`. -/
def fillBuf (reply : Reply Errno) (w : World) : Except Errno (List Byte) × World :=
  if w.reader.pos = w.reader.len then
    match File.read c w.offset 128 reply with
    | .error e => (.error e,w)
    | .ok bs => (.ok (w.load bs).reader.unread,w.load bs)
  else (.ok w.reader.unread,w)

/-- `read` into `k` bytes. -/
def read (k : ℕ) (reply : Reply Errno) (w : World) : Option (Except Errno (List Byte) × World) :=
  match fillBuf c reply w with
  | (.error e,w) => some (.error e,w)
  | (.ok bs,w) => (w.consume (min k bs.length)).map fun w => (.ok (bs.take (min k bs.length)),w)

/-- `read_exact` of `k` more bytes, with a reply for each round; a round that finds bytes in the
buffer leaves its reply unused. There is no result while the rounds have not come to an end. -/
def readExact : List (Reply Errno) → ℕ → List Byte → World →
    Option (Except Errno (List Byte) × World)
  | [],k,out,w => if k = 0 then some (.ok out,w) else none
  | reply::replies,k,out,w =>
    if k = 0 then some (.ok out,w)
    else match read c k reply w with
      | none => none
      | some (.error e,w) => if e = eintr then readExact replies k out w else some (.error e,w)
      | some (.ok bs,w) =>
        if bs.length = 0 then some (.error enodata,w)
        else readExact replies (k-bs.length) (out++bs) w

/-- The arguments that `seek` passes to `lseek`. -/
def lseekArgs : SeekFrom → Whence × BitVec 64
  | .start n => (.set,n)
  | .ending n => (.ending,n)
  | .current n => (.cur,n)

/-- `seek`. -/
def seek (f : SeekFrom) (reply : Option Errno) (w : World) : Except Errno ℕ × World :=
  let r : BufFdReader := ⟨w.reader.buf,w.reader.len,le_rfl⟩
  match lseek einval c.length w.offset (lseekArgs f).2.toInt (lseekArgs f).1 reply with
  | .error e => (.error e,⟨r,w.offset⟩)
  | .ok q => (.ok q,⟨r,q⟩)

/-- A call with the answers of the kernel. -/
inductive Op
  | read (k : ℕ) (reply : Reply Errno)
  | readExact (k : ℕ) (replies : List (Reply Errno))
  | fillBuf (reply : Reply Errno)
  | consume (amt : BitVec 64)
  | seek (f : SeekFrom) (reply : Option Errno)

def Op.call : Op → Call
  | .read k _ => .read k
  | .readExact k _ => .readExact k
  | .fillBuf _ => .fillBuf
  | .consume amt => .consume amt.toNat
  | .seek f _ => .seek f

def answer : Except Errno (List Byte) → Answer Byte Errno
  | .error e => .error e
  | .ok bs => .bytes bs

def seekAnswer : Except Errno ℕ → Answer Byte Errno
  | .error e => .error e
  | .ok q => .position q

def exec (w : World) : Op → Option (Answer Byte Errno × World)
  | .read k reply => (read c k reply w).map fun x => (answer x.1,x.2)
  | .readExact k replies => (readExact c replies k [] w).map fun x => (answer x.1,x.2)
  | .fillBuf reply => some (answer (fillBuf c reply w).1,(fillBuf c reply w).2)
  | .consume amt => (w.consume amt.toNat).map fun w => (.done,w)
  | .seek f reply => some (seekAnswer (seek c f reply w).1,(seek c f reply w).2)

def step (w : World) (op : Op) : Option World := (exec c w op).map Prod.snd

end Calls

namespace World

/-- The bytes in the buffer that are not consumed. -/
def avail (w : World) : ℕ := w.reader.len-w.reader.pos

/-- The logical position. -/
def position (w : World) : ℕ := w.offset-w.avail

/-- The bytes in the buffer are those of the file just before the offset. -/
structure Valid (c : List Byte) (w : World) : Prop where
  len_le : w.reader.len ≤ 128
  avail_le : w.avail ≤ w.offset
  unread_eq : w.reader.unread = slice c w.position w.avail

end World

section Spec

variable {c : List Byte} {w : World} {k n : ℕ}

lemma valid_new (c : List Byte) (offset : ℕ) : World.Valid c ⟨.new,offset⟩ :=
  ⟨Nat.zero_le _,Nat.zero_le _,rfl⟩

lemma length_unread (w : World) : w.reader.unread.length = w.avail := List.length_drop

lemma World.Valid.offset_eq (hw : w.Valid c) : w.offset = w.position+w.avail := by
  have := hw.avail_le
  unfold World.position
  omega

lemma pos_eq_len_iff : w.reader.pos = w.reader.len ↔ w.avail = 0 := by
  have := w.reader.pos_le
  unfold World.avail BufFdReader.len
  omega

/-- Consuming bytes that are in the buffer. -/
lemma World.Valid.consume (hw : w.Valid c) (hn : n ≤ w.avail) :
    ∃ v, w.consume n = some v ∧ v.Valid c ∧ v.position = w.position+n ∧ v.avail = w.avail-n ∧
      v.offset = w.offset := by
  have hlen := hw.len_le
  have hoff := hw.avail_le
  have hpos := w.reader.pos_le
  have hfit : w.reader.pos+n ≤ w.reader.buf.length := by
    unfold World.avail BufFdReader.len at hn
    omega
  have hsum : (w.reader.pos+n) % 2^64 = w.reader.pos+n := by
    unfold BufFdReader.len at hlen
    exact Nat.mod_eq_of_lt (by omega)
  let v : World := ⟨⟨w.reader.buf,w.reader.pos+n,hfit⟩,w.offset⟩
  have havail : v.avail = w.avail-n := by
    change w.reader.buf.length-(w.reader.pos+n) = w.reader.buf.length-w.reader.pos-n
    omega
  have hposition : v.position = w.position+n := by
    change w.offset-v.avail = w.offset-w.avail+n
    omega
  refine ⟨v,?_,⟨hlen,?_,?_⟩,hposition,havail,rfl⟩
  · simp only [World.consume,BufFdReader.consume,hsum,dif_pos hfit]
    rfl
  · change v.avail ≤ w.offset
    omega
  · rw [hposition,havail,← drop_slice,← hw.unread_eq]
    exact (List.drop_drop).symm

lemma fillBuf_buffered (h : w.avail ≠ 0) (reply : Reply Errno) :
    fillBuf c reply w = (.ok w.reader.unread,w) := if_neg (mt pos_eq_len_iff.mp h)

lemma fillBuf_error (h : w.avail = 0) (e : Errno) : fillBuf c (.error e) w = (.error e,w) :=
  if_pos (pos_eq_len_iff.mpr h)

/-- The reader after it was handed the bytes that the reply counts. -/
def World.loaded (c : List Byte) (w : World) (n : ℕ) : World :=
  w.load (slice c w.offset (count c w.offset 128 n))

lemma fillBuf_count (h : w.avail = 0) (n : ℕ) :
    fillBuf c (.count n) w = (.ok (w.loaded c n).reader.unread,w.loaded c n) :=
  if_pos (pos_eq_len_iff.mpr h)

lemma loaded_avail (c : List Byte) (w : World) (n : ℕ) :
    (w.loaded c n).avail = count c w.offset 128 n := length_slice_count c w.offset 128 n

lemma loaded_offset (c : List Byte) (w : World) (n : ℕ) :
    (w.loaded c n).offset = w.offset+count c w.offset 128 n := by
  change w.offset+(slice c w.offset (count c w.offset 128 n)).length = _
  rw [length_slice_count]

lemma loaded_position (h : w.avail = 0) (n : ℕ) : (w.loaded c n).position = w.position := by
  rw [World.position,World.position,loaded_avail,loaded_offset,h,Nat.add_sub_cancel,Nat.sub_zero]

lemma loaded_valid (h : w.avail = 0) (n : ℕ) : (w.loaded c n).Valid c where
  len_le := by
    change (slice c w.offset (count c w.offset 128 n)).length ≤ 128
    rw [length_slice_count]
    unfold count
    omega
  avail_le := by
    rw [loaded_avail,loaded_offset]
    exact Nat.le_add_left _ _
  unread_eq := by
    rw [loaded_position h,loaded_avail,World.position,h]
    rfl

/-- What `fill_buf` shows, whichever way it comes by it. -/
lemma fillBuf_spec (hw : w.Valid c) (reply : Reply Errno) :
    (∃ e, reply = .error e ∧ w.avail = 0 ∧ fillBuf c reply w = (.error e,w)) ∨
      ∃ v, fillBuf c reply w = (.ok v.reader.unread,v) ∧ v.Valid c ∧ v.position = w.position ∧
        (v.avail = 0 → c.length ≤ w.position) := by
  by_cases h : w.avail = 0
  · cases reply with
    | error e => exact .inl ⟨e,rfl,h,fillBuf_error h e⟩
    | count n =>
      refine .inr ⟨_,fillBuf_count h n,loaded_valid h n,loaded_position h n,fun hzero => ?_⟩
      rw [loaded_avail] at hzero
      rw [World.position,h]
      exact count_eq_zero hzero (by decide)
  · exact .inr ⟨w,fillBuf_buffered h reply,hw,rfl,fun hzero => absurd hzero h⟩

/-- `read` hands on from what `fill_buf` shows. -/
lemma read_of_fillBuf {v : World} {reply : Reply Errno} (hv : v.Valid c)
    (hfill : fillBuf c reply w = (.ok v.reader.unread,v)) (k : ℕ) :
    ∃ u, read c k reply w = some (.ok (slice c v.position (min k v.avail)),u) ∧ u.Valid c ∧
      u.position = v.position+min k v.avail ∧ u.avail = v.avail-min k v.avail ∧
      u.offset = v.offset := by
  obtain ⟨u,hconsume,hu,hposition,havail,hoffset⟩ := hv.consume (Nat.min_le_right k v.avail)
  refine ⟨u,?_,hu,hposition,havail,hoffset⟩
  simp only [read,hfill,length_unread,hconsume,Option.map_some]
  rw [hv.unread_eq,take_slice,Nat.min_eq_left (Nat.min_le_right k v.avail)]

lemma read_of_error {e : Errno} (h : w.avail = 0) (k : ℕ) :
    read c k (.error e) w = some (.error e,w) := by
  simp only [read,fillBuf_error h]

end Spec

section Exact

/-- The bytes that the kernel hands out from `off` on until it fails or the file ends. -/
def granted (c : List Byte) : ℕ → List (Reply Errno) → ℕ
  | _,[] => 0
  | off,.error e::replies => if e = eintr then granted c off replies else 0
  | off,.count n::replies =>
    if count c off 128 n = 0 then 0
    else count c off 128 n+granted c (off+count c off 128 n) replies

/-- The bytes there are for a `read_exact`: those in the buffer and those the kernel hands out. -/
def supplied (c : List Byte) (w : World) (replies : List (Reply Errno)) : ℕ :=
  w.avail+granted c w.offset (if w.avail = 0 then replies else replies.tail)

variable {c : List Byte} {w : World} {k n : ℕ}

lemma supplied_of_empty (h : w.avail = 0) (replies : List (Reply Errno)) :
    supplied c w replies = granted c w.offset replies := by
  rw [supplied,h,if_pos rfl,Nat.zero_add]

/-- All `k` bytes were delivered if there were as many; otherwise the call failed after it had
consumed all there were. -/
def Delivered (c : List Byte) (p k total : ℕ) (out : List Byte) (x : Except Errno (List Byte))
    (v : World) : Prop :=
  (k ≤ total ∧ x = .ok (out++slice c p k) ∧ (slice c p k).length = k ∧ v.position = p+k) ∨
    (total < k ∧ (∃ e, x = .error e) ∧ v.position = p+total)

lemma delivered_none (c : List Byte) (total : ℕ) (out : List Byte) (w : World) :
    Delivered c w.position 0 total out (.ok out) w := .inl ⟨Nat.zero_le _,by simp,by simp,rfl⟩

/-- What a round delivers and what the rounds after it deliver make up one delivery. -/
lemma Delivered.prepend {p n total : ℕ} {out : List Byte} {x : Except Errno (List Byte)} {v : World}
    (hn : (slice c p n).length = n) (hk : n ≤ k)
    (h : Delivered c (p+n) (k-n) total (out++slice c p n) x v) :
    Delivered c p k (n+total) out x v := by
  have hsplit : slice c p k = slice c p n++slice c (p+n) (k-n) := by
    rw [← slice_add,Nat.add_sub_cancel' hk]
  rcases h with ⟨hle,hx,hlen,hv⟩ | ⟨hlt,hx,hv⟩
  · refine .inl ⟨by omega,?_,?_,by omega⟩
    · rw [hx,hsplit,List.append_assoc]
    · rw [hsplit,List.length_append,hn,hlen]
      omega
  · exact .inr ⟨by omega,hx,by omega⟩

lemma readExact_zero (c : List Byte) (replies : List (Reply Errno)) (out : List Byte) (w : World) :
    readExact c replies 0 out w = some (.ok out,w) := by
  cases replies <;> rfl

lemma World.Valid.length_slice (hw : w.Valid c) (hn : n ≤ w.avail) :
    (slice c w.position n).length = n := by
  have hlen := congrArg List.length hw.unread_eq
  rw [length_unread,File.length_slice] at hlen
  rw [File.length_slice]
  omega

/-- A round that is shown the bytes of `u`, and the rounds after it. -/
lemma readExact_round {u t : World} {replies : List (Reply Errno)} {out : List Byte}
    {x : Except Errno (List Byte)} {v : World} (hu : u.Valid c) (ht : t.Valid c)
    (htpos : t.position = u.position+min k u.avail)
    (htavail : t.avail = u.avail-min k u.avail) (htoff : t.offset = u.offset)
    (h : readExact c replies (k-min k u.avail) (out++slice c u.position (min k u.avail)) t =
      some (x,v))
    (ih : ∀ {k : ℕ} {out : List Byte}, readExact c replies k out t = some (x,v) →
      v.Valid c ∧ Delivered c t.position k (supplied c t replies) out x v) :
    v.Valid c ∧ Delivered c u.position k (u.avail+granted c u.offset replies) out x v := by
  by_cases hle : k ≤ u.avail
  · have hlen := hu.length_slice hle
    rw [Nat.min_eq_left hle] at htpos h
    rw [Nat.sub_self,readExact_zero] at h
    cases h
    exact ⟨ht,.inl ⟨by omega,rfl,hlen,htpos⟩⟩
  · rw [Nat.min_eq_right (by omega)] at htpos htavail h
    obtain ⟨hv,hrest⟩ := ih h
    rw [htpos,supplied_of_empty (by omega),htoff] at hrest
    exact ⟨hv,hrest.prepend (hu.length_slice le_rfl) (by omega)⟩

lemma readExact_spec {replies : List (Reply Errno)} {out : List Byte} (hw : w.Valid c)
    {x : Except Errno (List Byte)} {v : World} (h : readExact c replies k out w = some (x,v)) :
    v.Valid c ∧ Delivered c w.position k (supplied c w replies) out x v := by
  induction replies generalizing w k out with
  | nil =>
    rw [readExact] at h
    split_ifs at h with hk
    subst hk
    cases h
    exact ⟨hw,delivered_none c _ _ _⟩
  | cons reply replies ih =>
    by_cases hk : k = 0
    · subst hk
      rw [readExact_zero] at h
      cases h
      exact ⟨hw,delivered_none c _ _ _⟩
    rw [readExact,if_neg hk] at h
    by_cases hempty : w.avail = 0
    · rw [supplied_of_empty hempty]
      cases reply with
      | error e =>
        simp only [read_of_error hempty] at h
        rw [granted]
        split_ifs at h ⊢ with he
        · rw [← supplied_of_empty hempty]
          exact ih hw h
        · cases h
          exact ⟨hw,.inr ⟨by omega,⟨e,rfl⟩,rfl⟩⟩
      | count n =>
        have hu := loaded_valid (c := c) hempty n
        obtain ⟨t,hread,ht,htpos,htavail,htoff⟩ := read_of_fillBuf hu (fillBuf_count hempty n) k
        have hlen := hu.length_slice (Nat.min_le_right k _)
        simp only [hread,hlen] at h
        rw [granted,← loaded_offset,← loaded_avail,
          ← loaded_position (c := c) hempty n]
        by_cases hend : (w.loaded c n).avail = 0
        · rw [hend,Nat.min_zero,if_pos rfl] at h
          cases h
          rw [if_pos hend]
          exact ⟨ht,.inr ⟨by omega,⟨_,rfl⟩,by omega⟩⟩
        · rw [if_neg (by omega)] at h
          rw [if_neg hend]
          exact readExact_round hu ht htpos htavail htoff h fun h => ih ht h
    · have hfill := fillBuf_buffered (c := c) hempty reply
      obtain ⟨t,hread,ht,htpos,htavail,htoff⟩ := read_of_fillBuf hw hfill k
      have hlen := hw.length_slice (Nat.min_le_right k _)
      simp only [hread,hlen] at h
      rw [if_neg (by omega)] at h
      rw [supplied,if_neg hempty]
      exact readExact_round hw ht htpos htavail htoff h fun h => ih ht h

end Exact

section Lockstep

variable {c : List Byte} {w : World}

/-- A call that has to return: a `read_exact` is interrupted in no more than some of its rounds, and
a `consume` keeps to what is in the buffer. -/
def Answered (w : World) : Op → Prop
  | .readExact k replies => k ≤ replies.countP (· ≠ .error eintr)
  | .consume amt => amt.toNat ≤ w.avail
  | _ => True

/-- Each call returns, an unbuffered cursor that starts at position `p` gives the same answer, and
is then where the reader is. -/
def Lockstep (c : List Byte) : ℕ → World → List Op → Prop
  | p,w,[] => p = w.position
  | p,w,op::ops => p = w.position ∧ (Answered w op → (exec c w op).isSome) ∧
      ∀ a v, exec c w op = some (a,v) → ∃ q, CursorStep c p op.call a q ∧ Lockstep c q v ops

/-- The calls that a buffer makes no difference to: a `seek` with nothing buffered, or away from
the current position if it succeeds; a `read_exact` that gets all it asks for or nothing; a
`consume` that does not wrap. -/
def Safe (c : List Byte) (w : World) : Op → Prop
  | .read _ _ => True
  | .readExact k replies => k ≤ supplied c w replies ∨ supplied c w replies = 0
  | .fillBuf _ => True
  | .consume amt => w.reader.pos+amt.toNat < 2^64
  | .seek (.current _) _ => w.avail = 0
  | .seek f reply => w.avail = 0 ∨
      (reply = none ∧ 0 ≤ f.target c.length w.position ∧ f.target c.length w.position < 2^63)

instance (c : List Byte) (w : World) : (op : Op) → Decidable (Safe c w op)
  | .read _ _ => isTrue trivial
  | .readExact _ _ => inferInstanceAs (Decidable (_ ∨ _))
  | .fillBuf _ => isTrue trivial
  | .consume _ => inferInstanceAs (Decidable (_ < _))
  | .seek (.start _) _ => inferInstanceAs (Decidable (_ ∨ _))
  | .seek (.ending _) _ => inferInstanceAs (Decidable (_ ∨ _))
  | .seek (.current _) _ => inferInstanceAs (Decidable (_ = _))

lemma exec_read (hw : w.Valid c) {k : ℕ} {reply : Reply Errno} {a : Answer Byte Errno} {v : World}
    (h : exec c w (.read k reply) = some (a,v)) :
    v.Valid c ∧ CursorStep c w.position (.read k) a v.position := by
  rcases fillBuf_spec hw reply with ⟨e,rfl,hempty,-⟩ | ⟨u,hfill,hu,hposition,hend⟩
  · simp only [exec,read_of_error hempty,Option.map_some,Option.some.injEq,Prod.mk.injEq] at h
    obtain ⟨rfl,rfl⟩ := h
    exact ⟨hw,rfl⟩
  · obtain ⟨t,hread,ht,htpos,htavail,-⟩ := read_of_fillBuf hu hfill k
    simp only [exec,hread,Option.map_some,Option.some.injEq,Prod.mk.injEq] at h
    obtain ⟨rfl,rfl⟩ := h
    have hlen := hu.length_slice (Nat.min_le_right k u.avail)
    refine ⟨ht,?_,?_,fun hnil => ?_,?_⟩
    · rw [hlen,hposition]
    · rw [hlen]
      exact Nat.min_le_left _ _
    · rw [hnil] at hlen
      change 0 = min k u.avail at hlen
      by_cases hk : k = 0
      · exact .inl hk
      · exact .inr (hend (by omega))
    · rw [htpos,hlen,hposition]

lemma exec_fillBuf (hw : w.Valid c) {reply : Reply Errno} {a : Answer Byte Errno} {v : World}
    (h : exec c w (.fillBuf reply) = some (a,v)) :
    v.Valid c ∧ CursorStep c w.position .fillBuf a v.position := by
  rcases fillBuf_spec hw reply with ⟨e,rfl,-,hfill⟩ | ⟨u,hfill,hu,hposition,hend⟩
  · simp only [exec,hfill,Option.some.injEq,Prod.mk.injEq] at h
    obtain ⟨rfl,rfl⟩ := h
    exact ⟨hw,rfl⟩
  · simp only [exec,hfill,Option.some.injEq,Prod.mk.injEq] at h
    obtain ⟨rfl,rfl⟩ := h
    refine ⟨hu,?_,fun hnil => hend ?_,hposition⟩
    · rw [length_unread,← hposition]
      exact hu.unread_eq
    · rw [← length_unread,hnil]
      rfl

lemma exec_readExact (hw : w.Valid c) {k : ℕ} {replies : List (Reply Errno)}
    {a : Answer Byte Errno} {v : World} (h : exec c w (.readExact k replies) = some (a,v)) :
    v.Valid c ∧ (CursorStep c w.position (.readExact k) a v.position ↔
      k ≤ supplied c w replies ∨ supplied c w replies = 0) := by
  obtain ⟨⟨x,u⟩,hx,heq⟩ := Option.map_eq_some_iff.mp h
  obtain ⟨rfl,rfl⟩ := Prod.mk.inj heq
  obtain ⟨hv,hdelivered⟩ := readExact_spec hw hx
  refine ⟨hv,?_⟩
  rcases hdelivered with ⟨hle,rfl,hlen,hposition⟩ | ⟨hlt,⟨e,rfl⟩,hposition⟩
  · exact iff_of_true ⟨rfl,hlen,hposition⟩ (.inl hle)
  · change u.position = w.position ↔ _
    omega

lemma exec_consume (hw : w.Valid c) {amt : BitVec 64} {a : Answer Byte Errno} {v : World}
    (h : exec c w (.consume amt) = some (a,v)) :
    (w.reader.pos+amt.toNat < 2^64 → v.Valid c) ∧
      (CursorStep c w.position (.consume amt.toNat) a v.position ↔
        w.reader.pos+amt.toNat < 2^64) := by
  have hlen := hw.len_le
  have hpos := w.reader.pos_le
  obtain ⟨u,hu,heq⟩ := Option.map_eq_some_iff.mp h
  obtain ⟨rfl,rfl⟩ := Prod.mk.inj heq
  obtain ⟨r,hr,rfl⟩ := Option.map_eq_some_iff.mp hu
  simp only [BufFdReader.consume] at hr
  split_ifs at hr with hfit
  cases hr
  by_cases hwrap : w.reader.pos+amt.toNat < 2^64
  · -- no wrap, so the bytes are in the buffer
    rw [Nat.mod_eq_of_lt hwrap] at hfit
    have havail : amt.toNat ≤ w.avail := by
      unfold World.avail BufFdReader.len
      omega
    obtain ⟨v,hv,hvalid,hposition,-⟩ := hw.consume havail
    rw [hv] at hu
    cases hu
    exact ⟨fun _ => hvalid,iff_of_true hposition hwrap⟩
  · refine ⟨fun h => absurd h hwrap,iff_of_false (fun hstep => ?_) hwrap⟩
    change w.offset-(w.reader.buf.length-(w.reader.pos+amt.toNat) % 2^64) =
      w.offset-(w.reader.buf.length-w.reader.pos)+amt.toNat at hstep
    have hamt := amt.isLt
    unfold BufFdReader.len at hlen
    omega

lemma seek_eq_ok {f : SeekFrom} {reply : Option Errno} {q : ℕ} (h : lseek einval c.length w.offset
      (lseekArgs f).2.toInt (lseekArgs f).1 reply = .ok q) :
    seek c f reply w = (.ok q,⟨⟨w.reader.buf,w.reader.len,le_rfl⟩,q⟩) := by
  simp only [seek,h]

lemma seek_eq_error {f : SeekFrom} {reply : Option Errno} {e : Errno} (h : lseek einval c.length
      w.offset (lseekArgs f).2.toInt (lseekArgs f).1 reply = .error e) :
    seek c f reply w = (.error e,⟨⟨w.reader.buf,w.reader.len,le_rfl⟩,w.offset⟩) := by
  simp only [seek,h]

/-- After a `seek` nothing is in the buffer. -/
lemma seek_avail (r : BufFdReader) (q : ℕ) :
    World.avail ⟨⟨r.buf,r.len,le_rfl⟩,q⟩ = 0 := Nat.sub_self _

lemma seek_position (r : BufFdReader) (q : ℕ) :
    World.position ⟨⟨r.buf,r.len,le_rfl⟩,q⟩ = q := by
  rw [World.position,seek_avail]
  rfl

lemma seek_valid (hw : w.Valid c) (q : ℕ) :
    World.Valid c ⟨⟨w.reader.buf,w.reader.len,le_rfl⟩,q⟩ where
  len_le := hw.len_le
  avail_le := by
    rw [seek_avail]
    exact Nat.zero_le _
  unread_eq := by
    rw [seek_avail,slice_zero]
    exact List.drop_length

lemma World.Valid.offset_eq_iff (hw : w.Valid c) : w.offset = w.position ↔ w.avail = 0 := by
  have := hw.offset_eq
  omega

/-- The target that `lseek` goes to is the one asked for, unless it is relative to bytes that were
read ahead. -/
lemma lseek_target {f : SeekFrom} {q : ℕ} (hw : w.Valid c)
    (h0 : 0 ≤ (lseekArgs f).1.target c.length w.offset (lseekArgs f).2.toInt)
    (h : (q : ℤ) = (lseekArgs f).1.target c.length w.offset (lseekArgs f).2.toInt) :
    (q : ℤ) = f.target c.length w.position ↔ w.avail = 0 ∨ ∀ n, f ≠ .current n := by
  rw [h]
  cases f with
  | start n =>
    have hn : n.toInt = n.toNat := by
      change 0 ≤ n.toInt at h0
      rw [BitVec.toInt_eq_toNat_cond] at h0 ⊢
      split_ifs at h0 ⊢ <;> omega
    exact iff_of_true hn (.inr (by simp))
  | ending n => exact iff_of_true rfl (.inr (by simp))
  | current n =>
    rw [← hw.offset_eq_iff]
    change (w.offset : ℤ)+n.toInt = w.position+n.toInt ↔ _
    simp

/-- Away from the current position, `lseek` succeeds exactly if where it is to go is in range. -/
lemma target_in_range {f : SeekFrom} (hf : ∀ n, f ≠ .current n) :
    (0 ≤ (lseekArgs f).1.target c.length w.offset (lseekArgs f).2.toInt ∧
        (lseekArgs f).1.target c.length w.offset (lseekArgs f).2.toInt < 2^63) ↔
      0 ≤ f.target c.length w.position ∧ f.target c.length w.position < 2^63 := by
  cases f with
  | start n =>
    change 0 ≤ n.toInt ∧ n.toInt < 2^63 ↔ 0 ≤ (n.toNat : ℤ) ∧ (n.toNat : ℤ) < 2^63
    have hlt := n.isLt
    rw [BitVec.toInt_eq_toNat_cond]
    split_ifs <;> omega
  | ending n => rfl
  | current n => exact absurd rfl (hf n)

lemma exec_seek (hw : w.Valid c) {f : SeekFrom} {reply : Option Errno} {a : Answer Byte Errno}
    {v : World} (h : exec c w (.seek f reply) = some (a,v)) :
    v.Valid c ∧ (CursorStep c w.position (.seek f) a v.position ↔ Safe c w (.seek f reply)) := by
  have hsafe : Safe c w (.seek f reply) ↔ w.avail = 0 ∨ ((∀ n, f ≠ .current n) ∧ reply = none ∧
      0 ≤ f.target c.length w.position ∧ f.target c.length w.position < 2^63) := by
    cases f <;> simp [Safe]
  rw [hsafe]
  cases hlseek : lseek einval c.length w.offset (lseekArgs f).2.toInt (lseekArgs f).1 reply with
  | error e =>
    simp only [exec,seek_eq_error hlseek,Option.some.injEq,Prod.mk.injEq] at h
    obtain ⟨rfl,rfl⟩ := h
    refine ⟨seek_valid hw _,?_⟩
    have hstep : CursorStep c w.position (.seek f) (seekAnswer (.error e))
        (World.position ⟨⟨w.reader.buf,w.reader.len,le_rfl⟩,w.offset⟩) ↔ w.avail = 0 := by
      rw [seek_position]
      exact hw.offset_eq_iff
    rw [hstep]
    refine ⟨.inl,fun hor => hor.resolve_right ?_⟩
    rintro ⟨hf,rfl,hrange⟩
    obtain ⟨h0,hlt⟩ := target_in_range hf |>.mpr hrange
    have hok : lseek einval c.length w.offset (lseekArgs f).2.toInt (lseekArgs f).1 none = .ok _ :=
      lseek_ok_iff.mpr ⟨rfl,h0,hlt,Int.toNat_of_nonneg h0⟩
    rw [hlseek] at hok
    cases hok
  | ok q =>
    simp only [exec,seek_eq_ok hlseek,Option.some.injEq,Prod.mk.injEq] at h
    obtain ⟨rfl,rfl⟩ := h
    refine ⟨seek_valid hw _,?_⟩
    obtain ⟨hreply,h0,hlt,hq⟩ := lseek_ok_iff.mp hlseek
    have hstep : CursorStep c w.position (.seek f) (seekAnswer (.ok q))
        (World.position ⟨⟨w.reader.buf,w.reader.len,le_rfl⟩,q⟩) ↔
          (q : ℤ) = f.target c.length w.position := by
      rw [seek_position]
      exact and_iff_left rfl
    rw [hstep,lseek_target hw h0 hq]
    exact or_congr_right ⟨fun hf => ⟨hf,hreply,(target_in_range hf).mp ⟨h0,hlt⟩⟩,And.left⟩

/-- What one call does: the buffer makes no difference to it exactly if it is safe. -/
lemma exec_follows_iff (hw : w.Valid c) {op : Op} {a : Answer Byte Errno} {v : World}
    (h : exec c w op = some (a,v)) :
    (Safe c w op → v.Valid c) ∧ (CursorStep c w.position op.call a v.position ↔ Safe c w op) := by
  cases op with
  | read k reply =>
    obtain ⟨hv,hstep⟩ := exec_read hw h
    exact ⟨fun _ => hv,iff_of_true hstep trivial⟩
  | readExact k replies =>
    obtain ⟨hv,hiff⟩ := exec_readExact hw h
    exact ⟨fun _ => hv,hiff⟩
  | fillBuf reply =>
    obtain ⟨hv,hstep⟩ := exec_fillBuf hw h
    exact ⟨fun _ => hv,iff_of_true hstep trivial⟩
  | consume amt => exact exec_consume hw h
  | seek f reply =>
    obtain ⟨hv,hiff⟩ := exec_seek hw h
    exact ⟨fun _ => hv,hiff⟩

lemma read_cases (hw : w.Valid c) (k : ℕ) (reply : Reply Errno) :
    (∃ e, reply = .error e ∧ read c k reply w = some (.error e,w)) ∨
      ∃ bs v, read c k reply w = some (.ok bs,v) ∧ v.Valid c := by
  rcases fillBuf_spec hw reply with ⟨e,rfl,hempty,-⟩ | ⟨u,hfill,hu,-,-⟩
  · exact .inl ⟨e,rfl,read_of_error hempty k⟩
  · obtain ⟨t,hread,ht,-⟩ := read_of_fillBuf hu hfill k
    exact .inr ⟨_,t,hread,ht⟩

lemma readExact_isSome {replies : List (Reply Errno)} {k : ℕ} {out : List Byte} (hw : w.Valid c)
    (h : k ≤ replies.countP (· ≠ .error eintr)) : (readExact c replies k out w).isSome = true := by
  induction replies generalizing w k out with
  | nil =>
    have hk : k = 0 := Nat.le_zero.mp h
    rw [hk]
    rfl
  | cons reply replies ih =>
    by_cases hk : k = 0
    · rw [hk,readExact_zero]
      rfl
    rw [readExact,if_neg hk]
    rcases read_cases hw k reply with ⟨e,rfl,hread⟩ | ⟨bs,v,hread,hv⟩
    · simp only [hread]
      split_ifs with he
      · rw [he,List.countP_cons_of_neg (by simp)] at h
        exact ih hw h
      · rfl
    · simp only [hread]
      split_ifs with hbs
      · rfl
      · -- each round that is not interrupted delivers a byte or ends the call
        have hcount := List.countP_cons (p := (· ≠ .error eintr)) (a := reply) (l := replies)
        exact ih hv (by split_ifs at hcount <;> omega)

lemma exec_isSome (hw : w.Valid c) {op : Op} (h : Answered w op) : (exec c w op).isSome = true := by
  cases op with
  | read k reply =>
    rcases read_cases hw k reply with ⟨e,-,hread⟩ | ⟨bs,v,hread,-⟩
    · simp [exec,hread]
    · simp [exec,hread]
  | readExact k replies =>
    rw [exec,Option.isSome_map]
    exact readExact_isSome hw h
  | fillBuf reply => rfl
  | consume amt =>
    obtain ⟨v,hv,-⟩ := hw.consume h
    simp [exec,hv]
  | seek f reply => rfl

lemma Lockstep.head {p : ℕ} {ops : List Op} (h : Lockstep c p w ops) : p = w.position := by
  cases ops with
  | nil => exact h
  | cons op ops => exact h.1

lemma lockstep_iff_guarded (hw : w.Valid c) (ops : List Op) :
    Lockstep c w.position w ops ↔ Guarded (step c) (Safe c) w ops := by
  induction ops generalizing w with
  | nil => exact iff_of_true rfl trivial
  | cons op ops ih =>
    constructor
    · rintro ⟨-,-,hstep⟩ t ht
      obtain ⟨⟨a,v⟩,hexec,rfl⟩ := Option.map_eq_some_iff.mp ht
      obtain ⟨q,hcursor,hrest⟩ := hstep a v hexec
      obtain ⟨hvalid,hiff⟩ := exec_follows_iff hw hexec
      rw [hrest.head] at hcursor hrest
      have hsafe := hiff.mp hcursor
      exact ⟨hsafe,(ih (hvalid hsafe)).mp hrest⟩
    · intro hguarded
      refine ⟨rfl,exec_isSome hw,fun a v hexec => ⟨v.position,?_⟩⟩
      obtain ⟨hsafe,hrest⟩ := hguarded v (Option.map_eq_some_iff.mpr ⟨(a,v),hexec,rfl⟩)
      obtain ⟨hvalid,hiff⟩ := exec_follows_iff hw hexec
      exact ⟨hiff.mpr hsafe,(ih (hvalid hsafe)).mpr hrest⟩

/-- A new reader is in step with an unbuffered cursor over a sequence of calls exactly if each of
them is safe. -/
theorem lockstep_iff_safe (c : List Byte) (offset : ℕ) (ops : List Op) :
    Lockstep c offset ⟨.new,offset⟩ ops ↔ Guarded (step c) (Safe c) ⟨.new,offset⟩ ops :=
  lockstep_iff_guarded (valid_new c offset) ops

/-- With all three bytes in the buffer and none consumed, the current position is taken for 3; a
`read_exact` that fails has consumed them. -/
theorem read_ahead_counted :
    ¬ Lockstep [1,2,3] 0 ⟨.new,0⟩ [.fillBuf (.count 3),.seek (.current 0#64) none] ∧
      ¬ Lockstep [1,2,3] 0 ⟨.new,0⟩ [.readExact 5 [.count 3,.count 1]] := by
  constructor
  · intro h
    have hsecond := ((lockstep_iff_guarded (valid_new _ 0) _).mp h _ rfl).2 _ rfl
    exact absurd hsecond.1 (by decide)
  · intro h
    have hfirst := (lockstep_iff_guarded (valid_new _ 0) _).mp h _ rfl
    exact absurd hfirst.1 (by decide)

end Lockstep

end WinterLily.Reader
