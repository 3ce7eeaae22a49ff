import WinterLily.Access.Checked
import WinterLily.Access.Decoder

/-! `check_utf8` of `wl-impl/src/helpers.rs`: the string is copied chunk by chunk into a local buffer
with a checked copy, and the automaton runs over each chunk. -/
namespace WinterLily.Access
open WinterLily.Memory WinterLily.Utf8 WinterLily.Transition

structure KStrCPtr where
  strPtr : Word
  len : Word
  deriving DecidableEq, Repr

inductive CheckUtfError
  | access (e : CheckedAccessError)
  | invalidUtf8
  deriving DecidableEq, Repr

/-- `4 * size_of::<usize>()`. -/
def bufLen : ℕ := 32

/-- The `n` bytes at `a`. -/
def bytesAt (m : Mem 64) (a : Word) (n : ℕ) : List Byte :=
  (List.range n).map fun i => m (a+BitVec.ofNat 64 i)

def Decoder.initial : Decoder := ⟨0,0,0#32⟩

/-- The outer loop, with the local buffer at `buf` and the copy's error record at `err`. -/
def checkUtf8Loop (p : Perms 64) (frame : JmpBuf) (buf err : Word) (strPtr : Word) (len : ℕ)
    (s : Decoder) (t : Thread) : Outcome (Except CheckUtfError Unit) :=
  if len = 0 then .returned (.ok ()) t
  else
    let t := { t with mem := t.mem.fill buf bufLen fun _ => 0#8 }
    let tlen := min len bufLen
    (copyNonoverlappingChecked p frame t strPtr buf (BitVec.ofNat 64 tlen) 1#64 err).andThen
      fun r t =>
        match r with
        | .error e => .returned (.error (.access e)) t
        | .ok () =>
          match run feed s (bytesAt t.mem buf tlen) with
          | none => .returned (.error .invalidUtf8) t
          | some s =>
            checkUtf8Loop p frame buf err (strPtr+BitVec.ofNat 64 tlen) (len-tlen) s t
termination_by len
decreasing_by
  unfold bufLen
  omega

def checkUtf8 (p : Perms 64) (frame : JmpBuf) (buf err : Word) (kstr : KStrCPtr) (t : Thread) :
    Outcome (Except CheckUtfError KStrCPtr) :=
  (checkUtf8Loop p frame buf err kstr.strPtr kstr.len.toNat .initial t).andThen
    fun r t => .returned (r.map fun _ => kstr) t

/-- All reads of the `len` bytes at `strPtr` succeed: none of them may not be read and none of them
is in the local buffer. -/
structure Readable (p : Perms 64) (buf strPtr : Word) (len : ℕ) : Prop where
  fits : strPtr.toNat+len ≤ 2^64
  bufFits : buf.toNat+bufLen ≤ 2^64
  read : p.Allows .read strPtr len
  write : p.Allows .write buf bufLen
  apart : ∀ i < len, ∀ j < bufLen, strPtr+BitVec.ofNat 64 i ≠ buf+BitVec.ofNat 64 j

/-- The copy of the last chunk leaves out the last byte. -/
def lastUnread (n : ℕ) : Prop := n % 32 = 8 ∨ n % 32 = 16 ∨ n % 32 = 24

instance (n : ℕ) : Decidable (lastUnread n) := inferInstanceAs (Decidable (_ ∨ _))

/-- The bytes the automaton gets to see. -/
def seen (bytes : List Byte) : List Byte :=
  if lastUnread bytes.length then bytes.dropLast++[0#8] else bytes

@[simp] lemma bytesAt_length (m : Mem 64) (a : Word) (n : ℕ) : (bytesAt m a n).length = n := by
  simp [bytesAt]

lemma bytesAt_add (m : Mem 64) (a : Word) (n k : ℕ) :
    bytesAt m a (n+k) = bytesAt m a n++bytesAt m (a+BitVec.ofNat 64 n) k := by
  simp only [bytesAt,List.range_add,List.map_append,List.map_map]
  congr 2
  funext i
  simp [BitVec.add_assoc,BitVec.ofNat_add]

lemma bytesAt_congr {m m' : Mem 64} {a : Word} {n : ℕ}
    (h : ∀ i < n, m (a+BitVec.ofNat 64 i) = m' (a+BitVec.ofNat 64 i)) :
    bytesAt m a n = bytesAt m' a n := by
  apply List.map_congr_left
  intro i hi
  exact h i (List.mem_range.mp hi)

/-- Ranges that share no byte do not overlap, as the code tests it. -/
lemma not_overlaps {a b n : Word} (ha : a.toNat+n.toNat ≤ 2^64) (hb : b.toNat+n.toNat ≤ 2^64)
    (h : ∀ i < n.toNat, ∀ j < n.toNat, a+BitVec.ofNat 64 i ≠ b+BitVec.ofNat 64 j) :
    ¬ Overlaps a b n := by
  have hone : ∀ {x y : Word}, x.toNat+n.toNat ≤ 2^64 → inRange x n y = true →
      ∃ i < n.toNat, x+BitVec.ofNat 64 i = y+BitVec.ofNat 64 0 := by
    intro x y hx hin
    simp only [inRange,Bool.and_eq_true,decide_eq_true_eq,BitVec.le_def,BitVec.lt_def,
      BitVec.toNat_add] at hin
    have hlt : y.toNat < x.toNat+n.toNat := hin.2.trans_le (Nat.mod_le _ _)
    refine ⟨y.toNat-x.toNat,by omega,?_⟩
    apply BitVec.eq_of_toNat_eq
    have hy := y.isLt
    rw [add_ofNat_toNat (by omega),add_ofNat_toNat (by omega)]
    omega
  rintro (hin | hin)
  · obtain ⟨i,hi,heq⟩ := hone ha hin
    exact h i hi 0 (by omega) heq
  · obtain ⟨j,hj,heq⟩ := hone hb hin
    exact h 0 (by omega) j hj heq.symm

/-- A copy between ranges that are open and apart. -/
lemma copyNonoverlappingChecked_copies {p : Perms 64} (frame : JmpBuf) (t : Thread)
    {src dest elems size : Word} (err : Word) (hover : ¬ Overlaps src dest (elems*size))
    (hopen : (⟨dest,src,elems*size⟩ : Regs).Open p (covered (elems*size).toNat))
    (hdis : (⟨dest,src,elems*size⟩ : Regs).Disjoint (covered (elems*size).toNat)) :
    ∃ t', copyNonoverlappingChecked p frame t src dest elems size err = .returned (.ok ()) t' ∧
      t'.mem = t.mem.fill dest (covered (elems*size).toNat) fun i =>
        t.mem (src+BitVec.ofNat 64 i) := by
  obtain ⟨h₁,h₂⟩ := not_or.mp hover
  have hm := memcpyExplicit_copies t.mem hopen hdis
  unfold copyNonoverlappingChecked
  rw [if_neg h₁,if_neg h₂]
  dsimp only
  rw [checkedMemcpyImpl_ok (t := { t with accAddr := Function.update t.accAddr err 0#64 }) hm]
  exact ⟨_,rfl,rfl⟩

/-- A chunk that fits the buffer: the automaton sees the bytes the copy got to, and zeros. -/
lemma seen_chunk (m : Mem 64) (a : Word) {n : ℕ} (hn : n ≤ bufLen) :
    seen (bytesAt m a n) = bytesAt m a (covered n)++List.replicate (n-covered n) 0#8 := by
  unfold bufLen at hn
  by_cases hlast : lastUnread n
  · have hcov : covered n = n-1 := by
      unfold lastUnread at hlast
      unfold covered
      split_ifs <;> omega
    have hn1 : n = n-1+1 := by
      unfold lastUnread at hlast
      omega
    rw [seen,bytesAt_length,if_pos hlast,hcov]
    nth_rewrite 1 [hn1]
    have hone : n-(n-1) = 1 := by omega
    rw [bytesAt_add,hone]
    simp [bytesAt]
  · have hcov : covered n = n := by
      unfold lastUnread at hlast
      unfold covered
      split_ifs <;> omega
    rw [seen,bytesAt_length,if_neg hlast,hcov]
    simp

/-- A whole buffer of a longer string is seen as it is. -/
lemma seen_append {c rest : List Byte} (hc : c.length = bufLen) (hrest : rest ≠ []) :
    seen (c++rest) = c++seen rest := by
  have hmod : lastUnread (c++rest).length ↔ lastUnread rest.length := by
    unfold lastUnread
    rw [List.length_append,hc,bufLen]
    omega
  by_cases hlast : lastUnread rest.length
  · rw [seen,seen,if_pos (hmod.mpr hlast),if_pos hlast,List.dropLast_append_of_ne_nil hrest,
      List.append_assoc]
  · rw [seen,seen,if_neg fun h => hlast (hmod.mp h),if_neg hlast]

section Loop

variable {p : Perms 64} {buf strPtr : Word} {len : ℕ}

/-- The rest of the string after some of its bytes. -/
lemma Readable.drop (h : Readable p buf strPtr len) {n : ℕ} (hn : n < len) :
    Readable p buf (strPtr+BitVec.ofNat 64 n) (len-n) := by
  have hfits := h.fits
  refine ⟨?_,h.bufFits,?_,h.write,?_⟩
  · rw [add_ofNat_toNat (by omega)]
    omega
  · refine (allows_add (m := n) (n := len-n)).mp ?_ |>.2
    rw [Nat.add_sub_cancel' hn.le]
    exact h.read
  · intro i hi j hj
    rw [BitVec.add_assoc,← BitVec.ofNat_add]
    exact h.apart (n+i) (by omega) j hj

/-- What one chunk leaves in the buffer, and that the string stays as it is. -/
lemma chunk_copied (h : Readable p buf strPtr len) (frame : JmpBuf) (err : Word) (t : Thread)
    {n : ℕ} (hn : n ≤ len) (hbuf : n ≤ bufLen) :
    ∃ t', copyNonoverlappingChecked p frame
        { t with mem := t.mem.fill buf bufLen fun _ => 0#8 } strPtr buf (BitVec.ofNat 64 n) 1#64 err =
          .returned (.ok ()) t' ∧
      bytesAt t'.mem buf n = seen (bytesAt t.mem strPtr n) ∧
      ∀ i < len, t'.mem (strPtr+BitVec.ofNat 64 i) = t.mem (strPtr+BitVec.ofNat 64 i) := by
  have hbound : bufLen = 32 := rfl
  have hbits : (BitVec.ofNat 64 n*1#64).toNat = n := by
    rw [BitVec.mul_one,BitVec.toNat_ofNat]
    exact Nat.mod_eq_of_lt (by omega)
  have hcov := covered_le n
  have hfits := h.fits
  have hbfits := h.bufFits
  have hover : ¬ Overlaps strPtr buf (BitVec.ofNat 64 n*1#64) := by
    apply not_overlaps (by omega) (by omega)
    intro i hi j hj
    exact h.apart i (by omega) j (by omega)
  obtain ⟨t',ht',hmem⟩ := copyNonoverlappingChecked_copies frame
    { t with mem := t.mem.fill buf bufLen fun _ => 0#8 } err hover
    (by rw [hbits]; exact ⟨Allows.mono h.read (by omega),Allows.mono h.write (by omega)⟩)
    (by rw [hbits]; exact fun i hi j hj => h.apart i (by omega) j (by omega))
  rw [hbits] at hmem
  have hkeep : ∀ i < len, t.mem.fill buf bufLen (fun _ => 0#8) (strPtr+BitVec.ofNat 64 i) =
      t.mem (strPtr+BitVec.ofNat 64 i) :=
    fun i hi => fill_of_ne t.mem _ fun j hj => h.apart i hi j hj
  refine ⟨t',ht',?_,fun i hi => ?_⟩
  · rw [seen_chunk t.mem strPtr hbuf]
    apply List.ext_getElem
    · simp
      omega
    · intro i hi hi'
      rw [bytesAt_length] at hi
      have haddr : (buf+BitVec.ofNat 64 i).toNat = buf.toNat+i := add_ofNat_toNat (by omega)
      have hread : t'.mem (buf+BitVec.ofNat 64 i) =
          if i < covered n then t.mem (strPtr+BitVec.ofNat 64 i) else 0#8 := by
        rw [hmem,fill_apply _ _ (by omega),haddr]
        by_cases hic : i < covered n
        · rw [if_pos (by omega),if_pos hic,Nat.add_sub_cancel_left]
          exact hkeep i (by omega)
        · rw [if_neg (by omega),if_neg hic]
          exact if_pos (by rw [sub_toNat_lt_iff h.bufFits,haddr]; omega)
      by_cases hic : i < covered n
      · rw [List.getElem_append_left (by simpa using hic)]
        simp [bytesAt,hread,hic]
      · rw [List.getElem_append_right (by simpa using Nat.le_of_not_lt hic)]
        simp [bytesAt,hread,hic]
  · rw [hmem,fill_of_ne _ _ fun j hj => h.apart i hi j (by omega)]
    exact hkeep i hi

/-- What the automaton's end means. -/
def verdict : Option Decoder → Except CheckUtfError Unit
  | none => .error .invalidUtf8
  | some _ => .ok ()

/-- The loop runs the automaton over the whole string, wherever the chunks end. -/
lemma checkUtf8Loop_eq (h : Readable p buf strPtr len) (frame : JmpBuf) (err : Word) (s : Decoder)
    (t : Thread) :
    ∃ t', checkUtf8Loop p frame buf err strPtr len s t =
      .returned (verdict (run feed s (seen (bytesAt t.mem strPtr len)))) t' := by
  induction hl : len using Nat.strong_induction_on generalizing len strPtr s t with
  | _ len' ih =>
    subst hl
    rw [checkUtf8Loop]
    by_cases h0 : len = 0
    · subst h0
      exact ⟨t,rfl⟩
    rw [if_neg h0]
    have hbound : bufLen = 32 := rfl
    obtain ⟨t₁,ht₁,hbytes,hkeep⟩ := chunk_copied h frame err t (Nat.min_le_left len bufLen)
      (Nat.min_le_right len bufLen)
    simp only [ht₁,Outcome.andThen,hbytes]
    by_cases hle : len ≤ bufLen
    · rw [min_eq_left hle]
      cases hrun : run feed s (seen (bytesAt t.mem strPtr len)) with
      | none => exact ⟨t₁,rfl⟩
      | some s₁ =>
        change ∃ t', checkUtf8Loop p frame buf err _ (len-len) s₁ t₁ = _
        rw [Nat.sub_self,checkUtf8Loop]
        exact ⟨t₁,rfl⟩
    · have hlt : bufLen < len := Nat.lt_of_not_le hle
      rw [min_eq_right hlt.le]
      have hwhole : seen (bytesAt t.mem strPtr bufLen) = bytesAt t.mem strPtr bufLen := by
        unfold seen lastUnread
        simp [hbound]
      have hrest := h.drop hlt
      have hsplit : bytesAt t.mem strPtr len = bytesAt t.mem strPtr bufLen++
          bytesAt t₁.mem (strPtr+BitVec.ofNat 64 bufLen) (len-bufLen) := by
        have hsame : bytesAt t₁.mem (strPtr+BitVec.ofNat 64 bufLen) (len-bufLen) =
            bytesAt t.mem (strPtr+BitVec.ofNat 64 bufLen) (len-bufLen) := by
          apply bytesAt_congr
          intro i hi
          rw [BitVec.add_assoc,← BitVec.ofNat_add]
          exact hkeep (bufLen+i) (by omega)
        rw [hsame,← bytesAt_add,Nat.add_sub_cancel' hlt.le]
      have hne : bytesAt t₁.mem (strPtr+BitVec.ofNat 64 bufLen) (len-bufLen) ≠ [] := by
        rw [← List.length_pos_iff,bytesAt_length]
        omega
      rw [hwhole,hsplit,seen_append (bytesAt_length _ _ _) hne,run_append]
      cases hrun : run feed s (bytesAt t.mem strPtr bufLen) with
      | none => exact ⟨t₁,rfl⟩
      | some s₁ => exact ih (len-bufLen) (by omega) hrest s₁ t₁ rfl

end Loop

/-- A well-formed string followed by what `check_utf8` does not look at: a last byte that is not
copied, or a character that is cut off. -/
def LeavesTail (bytes : List Byte) : Prop :=
  ∃ whole tail, bytes = whole++tail ∧ isUtf8 whole = true ∧
    if lastUnread bytes.length then ∃ b, tail = [b] ∧ 0x80 ≤ b.toNat else CutChar tail

lemma checkUtf8_eq {p : Perms 64} {buf : Word} (kstr : KStrCPtr)
    (h : Readable p buf kstr.strPtr kstr.len.toNat) (frame : JmpBuf) (err : Word) (t : Thread) :
    ∃ t', checkUtf8 p frame buf err kstr t = .returned ((verdict (run feed .initial
      (seen (bytesAt t.mem kstr.strPtr kstr.len.toNat)))).map fun _ => kstr) t' := by
  obtain ⟨t',ht'⟩ := checkUtf8Loop_eq h frame err .initial t
  exact ⟨t',by rw [checkUtf8,ht']; rfl⟩

/-- The call succeeds exactly when the automaton runs through the bytes it sees, and then with the
whole string. -/
lemma checkUtf8_eq_ok_iff {p : Perms 64} {buf : Word} {kstr r : KStrCPtr}
    (h : Readable p buf kstr.strPtr kstr.len.toNat) (frame : JmpBuf) (err : Word) (t : Thread) :
    (∃ t', checkUtf8 p frame buf err kstr t = .returned (.ok r) t') ↔
      r = kstr ∧ ∃ s, run feed .initial (seen (bytesAt t.mem kstr.strPtr kstr.len.toNat)) =
        some s := by
  obtain ⟨t',ht'⟩ := checkUtf8_eq kstr h frame err t
  rw [ht']
  cases run feed .initial (seen (bytesAt t.mem kstr.strPtr kstr.len.toNat)) with
  | none =>
    refine iff_of_false ?_ (by simp)
    rintro ⟨t'',hr⟩
    cases hr
  | some s =>
    constructor
    · rintro ⟨t'',hr⟩
      cases hr
      exact ⟨rfl,s,rfl⟩
    · rintro ⟨rfl,-⟩
      exact ⟨t',rfl⟩

lemma checkUtf8_ok_iff {p : Perms 64} {buf : Word} {kstr : KStrCPtr}
    (h : Readable p buf kstr.strPtr kstr.len.toNat) (frame : JmpBuf) (err : Word) (t : Thread) :
    (∃ r t', checkUtf8 p frame buf err kstr t = .returned (.ok r) t') ↔
      ∃ s, run feed .initial (seen (bytesAt t.mem kstr.strPtr kstr.len.toNat)) = some s := by
  simp only [checkUtf8_eq_ok_iff h,exists_eq_left]

lemma isUtf8_singleton (b : Byte) : isUtf8 [b] = char1 b := by
  rw [isUtf8.eq_def]
  cases hb : char1 b <;> simp [hb,isUtf8]

/-- An unread last byte counts as a zero, so what is before it must be well formed. -/
lemma run_unread_iff (d : List Byte) :
    (∃ s, run feed .initial (d++[0#8]) = some s) ↔ isUtf8 d = true := by
  constructor
  · rintro ⟨s,h⟩
    rw [run_append] at h
    obtain ⟨u,hu,h⟩ := Option.bind_eq_some_iff.mp h
    refine ((run_idle_inv rfl hu).resolve_right fun hcut => ?_).2
    rw [run_cons,feed_notCont hcut.1 (by decide)] at h
    cases h
  · intro h
    obtain ⟨u,hu,hu0⟩ := run_of_isUtf8 h (s := .initial) rfl
    exact ⟨u,by rw [run_append,hu,Option.bind_some,run_cons,feed_char1 hu0 (by decide)]; rfl⟩

/-- What the automaton accepts of the bytes it sees is well formed unless there is such a tail. -/
lemma accepts_sound_iff (bytes : List Byte) :
    ((∃ s, run feed .initial (seen bytes) = some s) → isUtf8 bytes = true) ↔
      ¬ LeavesTail bytes := by
  unfold seen LeavesTail
  by_cases hlast : lastUnread bytes.length
  · simp only [hlast,if_true,run_unread_iff]
    have hne : bytes ≠ [] := by
      rintro rfl
      revert hlast
      decide
    constructor
    · rintro h ⟨whole,-,rfl,hwhole,b,rfl,hb⟩
      rw [List.dropLast_concat] at h
      have hall := h hwhole
      rw [isUtf8_append hwhole,isUtf8_singleton,char1,between_iff] at hall
      omega
    · intro h hd
      have hsplit := List.dropLast_append_getLast hne
      rw [← hsplit,isUtf8_append hd,isUtf8_singleton,char1,between_iff]
      by_contra hb
      exact h ⟨_,_,hsplit.symm,hd,_,rfl,by omega⟩
  · simp only [hlast,if_false]
    constructor
    · intro h htail
      obtain ⟨u,hu,hu0⟩ := run_of_truncated htail (s := .initial) rfl
      obtain ⟨w,hw,hw0⟩ := run_of_isUtf8 (h ⟨u,hu⟩) (s := .initial) rfl
      rw [hu,Option.some.injEq] at hw
      exact hu0 (hw ▸ hw0)
    · rintro h ⟨s,hs⟩
      exact ((run_idle_inv rfl hs).resolve_right fun hcut => h hcut.2).2

/-- `check_utf8` accepts only UTF-8 exactly on the strings that do not leave it such a tail. -/
theorem check_utf8_sound_iff (p : Perms 64) (frame : JmpBuf) (buf err : Word) (kstr : KStrCPtr)
    (t : Thread) (h : Readable p buf kstr.strPtr kstr.len.toNat) :
    ((∃ r t', checkUtf8 p frame buf err kstr t = .returned (.ok r) t') →
        isUtf8 (bytesAt t.mem kstr.strPtr kstr.len.toNat) = true) ↔
      ¬ LeavesTail (bytesAt t.mem kstr.strPtr kstr.len.toNat) := by
  rw [checkUtf8_ok_iff h]
  exact accepts_sound_iff _

/-- The last character has several bytes, and the last of them is not copied. -/
def EndsUnread (cs : List Char) : Prop :=
  lastUnread (encode cs).length ∧ ∃ c ∈ cs.getLast?, 1 < c.utf8Size

/-- The automaton runs through all encoded text but that. -/
lemma accepts_encode_iff (cs : List Char) :
    (∃ s, run feed .initial (seen (encode cs)) = some s) ↔ ¬ EndsUnread cs := by
  unfold seen EndsUnread
  by_cases hlast : lastUnread (encode cs).length
  · simp only [hlast,if_true,true_and,run_unread_iff]
    induction cs using List.reverseRecOn with
    | nil => exact absurd hlast (by decide)
    | append_singleton cs c =>
      have hlen := length_encodeChar c
      have hne : encodeChar c ≠ [] := by
        rw [← List.length_pos_iff,hlen]
        exact c.utf8Size_pos
      rw [encode_concat,List.dropLast_append_of_ne_nil hne,isUtf8_append (isUtf8_encode cs),
        List.getLast?_concat]
      simp only [Option.mem_some_iff,exists_eq_left',Nat.not_lt]
      constructor
      · intro h
        by_contra hsize
        rw [isUtf8_dropLast (isChar_encodeChar c) (by omega)] at h
        cases h
      · intro hsize
        have hnil : (encodeChar c).dropLast = [] := by
          rw [← List.length_eq_zero_iff,List.length_dropLast]
          omega
        rw [hnil]
        rfl
  · simp only [hlast,if_false,false_and,not_false_eq_true,iff_true]
    obtain ⟨t,ht,-⟩ := run_of_isUtf8 (isUtf8_encode cs) (s := .initial) rfl
    exact ⟨t,ht⟩

/-- `check_utf8` accepts encoded text, and returns its bytes, exactly if the text does not end with
a character whose last byte is not copied. -/
theorem check_utf8_complete_iff (p : Perms 64) (frame : JmpBuf) (buf err : Word) (kstr : KStrCPtr)
    (t : Thread) (h : Readable p buf kstr.strPtr kstr.len.toNat) (cs : List Char)
    (hcs : bytesAt t.mem kstr.strPtr kstr.len.toNat = encode cs) :
    (∃ t', checkUtf8 p frame buf err kstr t = .returned (.ok kstr) t') ↔ ¬ EndsUnread cs := by
  rw [checkUtf8_eq_ok_iff h,hcs,and_iff_right rfl]
  exact accepts_encode_iff cs

/-- A thread whose memory holds `bytes` at `0x3000`. -/
def textThread (bytes : List Byte) : Thread :=
  { calmThread with mem := fun a => bytes.getD (a-0x3000#64).toNat 0#8 }

/-- Every byte may be touched. -/
def openPerms : Perms 64 := fun _ _ => none

lemma readable_text {n : ℕ} (hn : n ≤ 8) : Readable openPerms 0x8000#64 0x3000#64 n := by
  refine ⟨by simp; omega,by decide,fun _ _ => rfl,fun _ _ => rfl,?_⟩
  intro i hi j hj heq
  have hnat := congrArg BitVec.toNat heq
  unfold bufLen at hj
  rw [add_ofNat_toNat (by simp; omega),add_ofNat_toNat (by simp; omega)] at hnat
  simp at hnat
  omega

/-- A two-byte character before a plain one: accepted, and well formed. -/
theorem check_utf8_sound_iff_accent :
    Readable openPerms 0x8000#64 0x3000#64 3 ∧
      (∃ t', checkUtf8 openPerms 0 0x8000#64 0x9000#64 ⟨0x3000#64,3#64⟩
          (textThread [0xC3#8,0xA9#8,0x41#8]) = .returned (.ok ⟨0x3000#64,3#64⟩) t') ∧
      isUtf8 (bytesAt (textThread [0xC3#8,0xA9#8,0x41#8]).mem 0x3000#64 3) = true := by
  have hread : Readable openPerms 0x8000#64 0x3000#64 (3#64).toNat := readable_text (by decide)
  obtain ⟨t',ht'⟩ := checkUtf8_eq ⟨0x3000#64,3#64⟩ hread 0 0x9000#64
    (textThread [0xC3#8,0xA9#8,0x41#8])
  refine ⟨hread,⟨t',ht'⟩,(check_utf8_sound_iff openPerms 0 0x8000#64 0x9000#64
    ⟨0x3000#64,3#64⟩ (textThread [0xC3#8,0xA9#8,0x41#8]) hread).mpr ?_ ⟨_,t',ht'⟩⟩
  rintro ⟨whole,tail,hsplit,hwhole,htail⟩
  have hbytes : bytesAt (textThread [0xC3#8,0xA9#8,0x41#8]).mem 0x3000#64 (3#64).toNat =
      [0xC3#8,0xA9#8,0x41#8] := by decide
  rw [hbytes] at hsplit htail
  -- None of the four places to cut the text leaves the beginning of a character.
  have hcut : ∀ n ≤ 3, ¬ CutChar ([0xC3#8,0xA9#8,0x41#8].drop n) ∨
      isUtf8 ([0xC3#8,0xA9#8,0x41#8].take n) = false := by decide
  have hlen : whole.length ≤ 3 := by
    have h := congrArg List.length hsplit
    rw [List.length_append] at h
    simp only [List.length_cons,List.length_nil] at h
    omega
  obtain h | h := hcut whole.length hlen
  · rw [hsplit,List.drop_left] at h
    exact h htail
  · rw [hsplit,List.take_left,hwhole] at h
    cases h

/-- A first byte on its own is accepted, and so is any byte at the end of a string of eight. -/
theorem cut_character_accepted :
    (∃ t', checkUtf8 openPerms 0 0x8000#64 0x9000#64 ⟨0x3000#64,1#64⟩ (textThread [0xC3#8]) =
        .returned (.ok ⟨0x3000#64,1#64⟩) t') ∧
      isUtf8 (bytesAt (textThread [0xC3#8]).mem 0x3000#64 1) = false ∧
      (∃ t', checkUtf8 openPerms 0 0x8000#64 0x9000#64 ⟨0x3000#64,8#64⟩
          (textThread (List.replicate 7 0x41#8++[0xFF#8])) = .returned (.ok ⟨0x3000#64,8#64⟩) t') ∧
      isUtf8 (bytesAt (textThread (List.replicate 7 0x41#8++[0xFF#8])).mem 0x3000#64 8) = false := by
  refine ⟨?_,by decide,?_,by decide⟩
  · have hread : Readable openPerms 0x8000#64 0x3000#64 (1#64).toNat := readable_text (by decide)
    obtain ⟨t',ht'⟩ := checkUtf8_eq ⟨0x3000#64,1#64⟩ hread 0 0x9000#64
      (textThread [0xC3#8])
    exact ⟨t',ht'⟩
  · have hread : Readable openPerms 0x8000#64 0x3000#64 (8#64).toNat := readable_text (by decide)
    obtain ⟨t',ht'⟩ := checkUtf8_eq ⟨0x3000#64,8#64⟩ hread 0 0x9000#64
      (textThread (List.replicate 7 0x41#8++[0xFF#8]))
    exact ⟨t',ht'⟩

/-- A single two-byte character. -/
theorem check_utf8_complete_iff_accent :
    Readable openPerms 0x8000#64 0x3000#64 2 ∧
      bytesAt (textThread [0xC3#8,0xA9#8]).mem 0x3000#64 2 = encode ['é'] ∧
      ((∃ t', checkUtf8 openPerms 0 0x8000#64 0x9000#64 ⟨0x3000#64,2#64⟩
          (textThread [0xC3#8,0xA9#8]) = .returned (.ok ⟨0x3000#64,2#64⟩) t') ↔
        ¬ EndsUnread ['é']) := by
  have hread : Readable openPerms 0x8000#64 0x3000#64 (2#64).toNat := readable_text (by decide)
  have hbytes : bytesAt (textThread [0xC3#8,0xA9#8]).mem 0x3000#64 (2#64).toNat = encode ['é'] := by
    decide
  exact ⟨hread,hbytes,check_utf8_complete_iff openPerms 0 0x8000#64 0x9000#64 ⟨0x3000#64,2#64⟩
    (textThread [0xC3#8,0xA9#8]) hread ['é'] hbytes⟩

/-- The same character at the end of a string of eight bytes is refused. -/
theorem accent_refused :
    bytesAt (textThread (encode ['a','a','a','a','a','a','é'])).mem 0x3000#64 8 =
        encode ['a','a','a','a','a','a','é'] ∧
      ∃ t', checkUtf8 openPerms 0 0x8000#64 0x9000#64 ⟨0x3000#64,8#64⟩
        (textThread (encode ['a','a','a','a','a','a','é'])) = .returned (.error .invalidUtf8) t' := by
  have hread : Readable openPerms 0x8000#64 0x3000#64 (8#64).toNat := readable_text (by decide)
  obtain ⟨t',ht'⟩ := checkUtf8_eq ⟨0x3000#64,8#64⟩ hread 0 0x9000#64
    (textThread (encode ['a','a','a','a','a','a','é']))
  exact ⟨by decide,t',ht'⟩

end WinterLily.Access
