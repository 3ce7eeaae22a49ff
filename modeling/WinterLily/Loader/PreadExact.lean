import Mathlib.Data.Set.Finite.Lattice
import WinterLily.Base.Effect
import WinterLily.Loader.Reader

/-! `pread_exact` of `wl-ld-lilium/src/helpers.rs`: the rest of the buffer and the offset go on by
what a `pread64` hands out, and an `EINTR` is tried again. -/
namespace WinterLily.PreadExact
open WinterLily.Effect WinterLily.File
open WinterLily.Reader (Byte Errno eintr einval enodata)

section Program

variable (c : List Byte)

/-- `pread64` of at most `cap` bytes; the offset is taken as a signed number. -/
def pread (offset : BitVec 64) (cap : ℕ) (reply : Reply Errno) : Except Errno (List Byte) :=
  if 2^63 ≤ offset.toNat then .error einval else File.read c offset.toNat cap reply

variable (replies : ℕ → Reply Errno)

/-- The rounds from `t` on, for at most `fuel` of them. The buffer is `filled` and then `buf`, the
slice that is left of it. -/
def preadLoop : ℕ → ℕ → BitVec 64 → List Byte → List Byte → Outcome (List Byte) (Except Errno Unit)
  | 0,_,_,filled,buf => .running (filled++buf)
  | fuel+1,t,offset,filled,buf =>
    if buf = [] then .pure (.ok ()) (filled++buf)
    else match pread c offset buf.length (replies t) with
      | .ok bs =>
        if bs.length = 0 then .pure (.error enodata) (filled++buf)
        else if buf.length < bs.length then .panic (filled++buf)
        else preadLoop fuel (t+1) (offset+BitVec.ofNat 64 bs.length) (filled++bs)
          (buf.drop bs.length)
      | .error e =>
        if e = eintr then preadLoop fuel (t+1) offset filled buf
        else .pure (.error e) (filled++buf)

/-- `pread_exact`. -/
def preadExact (fuel : ℕ) (offset : BitVec 64) (buf : List Byte) :
    Outcome (List Byte) (Except Errno Unit) :=
  preadLoop c replies fuel 0 offset [] buf

end Program

section Loop

variable {c : List Byte} {replies : ℕ → Reply Errno} {start len : ℕ}
  {offset : BitVec 64} {filled buf : List Byte}

/-- Between two rounds: what is filled are the bytes of the file from `start` up to the offset. -/
structure Between (c : List Byte) (start len : ℕ) (offset : BitVec 64) (filled buf : List Byte) :
    Prop where
  offset_eq : offset.toNat = start+filled.length
  length_eq : filled.length+buf.length = len
  filled_eq : filled = slice c start filled.length

lemma between_start (offset : BitVec 64) (buf : List Byte) :
    Between c offset.toNat buf.length offset [] buf :=
  ⟨rfl,Nat.zero_add _,(slice_zero _ _).symm⟩

/-- Bytes handed out at the offset. -/
lemma Between.advance {n : ℕ} (h : Between c start len offset filled buf) (hfit : start+len < 2^63)
    (hn : (slice c offset.toNat n).length = n) (hle : n ≤ buf.length) :
    Between c start len (offset+BitVec.ofNat 64 n) (filled++slice c offset.toNat n)
      (buf.drop n) := by
  have hlen := h.length_eq
  have hoff := h.offset_eq
  refine ⟨?_,?_,?_⟩
  · rw [BitVec.toNat_add,BitVec.toNat_ofNat,Nat.mod_eq_of_lt (show n < 2^64 by omega),
      Nat.mod_eq_of_lt (by omega),List.length_append,hn]
    omega
  · rw [List.length_append,hn,List.length_drop]
    omega
  · rw [List.length_append,hn,slice_add,← h.filled_eq,← hoff]

/-- What a round can do while there is something left to be filled. -/
lemma preadLoop_step (replies : ℕ → Reply Errno) (h : Between c start len offset filled buf)
    (hfit : start+len < 2^63) (hbuf : buf ≠ []) (fuel t : ℕ) :
    (replies t = .error eintr ∧ preadLoop c replies (fuel+1) t offset filled buf =
      preadLoop c replies fuel (t+1) offset filled buf) ∨
    (∃ e, e ≠ eintr ∧ replies t = .error e ∧
      preadLoop c replies (fuel+1) t offset filled buf = .pure (.error e) (filled++buf)) ∨
    (c.length < start+len ∧
      preadLoop c replies (fuel+1) t offset filled buf = .pure (.error enodata) (filled++buf)) ∨
    ∃ offset' filled' buf', Between c start len offset' filled' buf' ∧ buf'.length < buf.length ∧
      preadLoop c replies (fuel+1) t offset filled buf =
        preadLoop c replies fuel (t+1) offset' filled' buf' := by
  have hlen := h.length_eq
  have hoff := h.offset_eq
  have hpos := List.length_pos_iff.mpr hbuf
  have hpread : ∀ reply, pread c offset buf.length reply =
      File.read c offset.toNat buf.length reply := fun reply => if_neg (by omega)
  rw [preadLoop,if_neg hbuf,hpread]
  cases hreply : replies t with
  | error e =>
    by_cases he : e = eintr
    · exact .inl ⟨by rw [he],if_pos he⟩
    · exact .inr (.inl ⟨e,he,rfl,if_neg he⟩)
  | count n =>
    have hcount := length_slice_count c offset.toNat buf.length n
    have hcap : count c offset.toNat buf.length n ≤ buf.length := by
      unfold count
      omega
    simp only [File.read,hcount]
    by_cases hzero : count c offset.toNat buf.length n = 0
    · have hend := count_eq_zero hzero hpos
      exact .inr (.inr (.inl ⟨by omega,if_pos hzero⟩))
    · refine .inr (.inr (.inr ⟨_,_,_,h.advance hfit hcount hcap,?_,?_⟩))
      · rw [List.length_drop]
        omega
      · rw [if_neg hzero,if_neg (by omega)]

/-- The rest of the loop is still running, has filled the buffer from the file, or has returned the
error of a file that is too short or of the schedule. -/
def Safe (c : List Byte) (replies : ℕ → Reply Errno) (start len : ℕ)
    (x : Outcome (List Byte) (Except Errno Unit)) : Prop :=
  x.result = .running ∨ (start+len ≤ c.length ∧ x = .pure (.ok ()) (slice c start len)) ∨
    ∃ e buf, x = .pure (.error e) buf ∧
      (c.length < start+len ∧ e = enodata ∨ e ≠ eintr ∧ ∃ t, replies t = .error e)

lemma Between.full (h : Between c start len offset filled []) (hlen : 0 < len) :
    start+len ≤ c.length ∧ filled = slice c start len := by
  have hfull : filled.length = len := h.length_eq
  have hslice := h.filled_eq
  rw [hfull] at hslice
  have hmin := length_slice c start len
  rw [← hslice,hfull] at hmin
  exact ⟨by omega,hslice⟩

/-- Whatever the schedule, nothing else can happen. -/
lemma preadLoop_safe (replies : ℕ → Reply Errno) (h : Between c start len offset filled buf)
    (hfit : start+len < 2^63) (hlen : 0 < len) (fuel t : ℕ) :
    Safe c replies start len (preadLoop c replies fuel t offset filled buf) := by
  induction fuel generalizing t offset filled buf with
  | zero => exact .inl rfl
  | succ fuel ih =>
    by_cases hbuf : buf = []
    · subst hbuf
      obtain ⟨hle,hfilled⟩ := h.full hlen
      refine .inr (.inl ⟨hle,?_⟩)
      rw [preadLoop,if_pos rfl,List.append_nil,hfilled]
    · obtain ⟨-,heq⟩ | ⟨e,he,hreply,heq⟩ | ⟨hshort,heq⟩ | ⟨_,_,_,h',-,heq⟩ :=
        preadLoop_step replies h hfit hbuf fuel t
      · rw [heq]
        exact ih h (t+1)
      · exact .inr (.inr ⟨e,_,heq,.inr ⟨he,t,hreply⟩⟩)
      · exact .inr (.inr ⟨enodata,_,heq,.inl ⟨hshort,rfl⟩⟩)
      · rw [heq]
        exact ih h' (t+1)

/-- A round that is not interrupted fills something or is the last one. -/
lemma preadLoop_ends {rounds : ℕ} (hends : ∀ t ≥ rounds, replies t ≠ .error eintr)
    (h : Between c start len offset filled buf) (hfit : start+len < 2^63) (fuel t : ℕ)
    (hfuel : rounds-t+buf.length < fuel) :
    (preadLoop c replies fuel t offset filled buf).result ≠ .running := by
  induction fuel generalizing t offset filled buf with
  | zero => exact absurd hfuel (Nat.not_lt_zero _)
  | succ fuel ih =>
    by_cases hbuf : buf = []
    · rw [preadLoop,if_pos hbuf]
      exact nofun
    · obtain ⟨hreply,heq⟩ | ⟨e,-,-,heq⟩ | ⟨-,heq⟩ | ⟨_,_,_,h',hlt,heq⟩ :=
        preadLoop_step replies h hfit hbuf fuel t
      · have ht : t < rounds := Nat.lt_of_not_le fun hle => hends t hle hreply
        rw [heq]
        exact ih h (t+1) (by omega)
      · rw [heq]
        exact nofun
      · rw [heq]
        exact nofun
      · rw [heq]
        exact ih h' (t+1) (by omega)

end Loop

/-- The call returns: with the bytes of the file from `start` on if there are `len` of them, and
with `ENODATA` if there are not. -/
def ReadsExactly (c : List Byte) (start len : ℕ) (x : Outcome (List Byte) (Except Errno Unit)) :
    Prop :=
  if start+len ≤ c.length then x = .pure (.ok ()) (slice c start len)
  else ∃ buf, x = .pure (.error enodata) buf

/-- Such a call is the `read_exact` of a cursor at its offset that has no buffer. -/
theorem ReadsExactly.cursorStep {c : List Byte} {start len : ℕ} {r : Except Errno Unit}
    {buf : List Byte} (h : ReadsExactly c start len (.pure r buf)) :
    CursorStep c start (.readExact len) (Reader.answer (r.map fun _ => buf))
      (match r with
        | .ok _ => start+len
        | .error _ => start) := by
  unfold ReadsExactly at h
  split_ifs at h with hle
  · cases h
    refine ⟨rfl,?_,rfl⟩
    rw [length_slice]
    omega
  · obtain ⟨buf',hbuf⟩ := h
    cases hbuf
    rfl

/-- `pread_exact` reads the requested range or finds that the file is too short, however short the
reads are and however often they are interrupted. -/
theorem pread_exact_reads (c : List Byte) (offset : BitVec 64) (buf : List Byte)
    (replies : ℕ → Reply Errno) (hne : buf ≠ []) (hfit : offset.toNat+buf.length < 2^63)
    (herrors : ∀ t e, replies t = .error e → e = eintr)
    (hfinite : {t | replies t = .error eintr}.Finite) :
    ∃ enough, ∀ fuel ≥ enough,
      ReadsExactly c offset.toNat buf.length (preadExact c replies fuel offset buf) := by
  obtain ⟨last,hlast⟩ := hfinite.bddAbove
  have hends : ∀ t ≥ last+1, replies t ≠ .error eintr :=
    fun t ht hreply => absurd (hlast hreply) (by omega)
  have hpos := List.length_pos_iff.mpr hne
  refine ⟨last+1+buf.length+1,fun fuel hfuel => ?_⟩
  have hstart : Between c offset.toNat buf.length offset [] buf := between_start offset buf
  have hruns := preadLoop_ends hends hstart hfit fuel 0 (by omega)
  unfold ReadsExactly preadExact
  obtain hrunning | ⟨hle,heq⟩ | ⟨e,buf',heq,⟨hshort,rfl⟩ | ⟨he,t,hreply⟩⟩ :=
    preadLoop_safe replies hstart hfit hpos fuel 0
  · exact absurd hrunning hruns
  · rw [if_pos hle]
    exact heq
  · rw [if_neg (by omega)]
    exact ⟨buf',heq⟩
  · exact absurd (herrors t e hreply) he

/-- Three bytes from offset 1, with an interruption first and then one byte at a time. -/
theorem pread_exact_reads_three :
    {t | (if t = 0 then .error eintr else .count 1 : Reply Errno) = .error eintr}.Finite ∧
      ∃ enough, ∀ fuel ≥ enough, ReadsExactly [5,6,7,8] 1 3
        (preadExact [5,6,7,8] (fun t => if t = 0 then .error eintr else .count 1) fuel 1#64
          [0,0,0]) := by
  have hfinite : {t | (if t = 0 then .error eintr else .count 1 : Reply Errno) =
      .error eintr}.Finite := (Set.finite_singleton 0).subset fun t ht => by
    by_contra hne
    cases (if_neg hne).symm.trans ht
  refine ⟨hfinite,pread_exact_reads [5,6,7,8] 1#64 [0,0,0] _ (by decide) (by decide) ?_ hfinite⟩
  intro t e h
  split at h
  · exact (Reply.error.inj h).symm
  · cases h

end WinterLily.PreadExact
