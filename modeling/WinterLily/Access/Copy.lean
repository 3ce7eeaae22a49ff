import WinterLily.Base.Memory

/-! `__memcpy_explicit` of `wl-impl/src/libc/libc_defs.rs`, instruction by instruction: a loop of
16-byte moves, then at most one move each of 8, 4, 2 and 1 bytes. -/
namespace WinterLily.Access
open WinterLily.Memory

abbrev Word := BitVec 64

/-- The registers the routine works on. -/
structure Regs where
  rdi : Word
  rsi : Word
  rdx : Word
  deriving DecidableEq, Repr

/-- The two `lea` and the `sub` after a move. -/
def Regs.advance (r : Regs) (n : ℕ) : Regs :=
  ⟨r.rdi+BitVec.ofNat 64 n,r.rsi+BitVec.ofNat 64 n,r.rdx-BitVec.ofNat 64 n⟩

/-- A computation that may trap, leaving the memory as it was at the trap. -/
abbrev Copying := Except (Trap 64 × Mem 64)

/-- A load of `n` bytes through `rsi` and their store through `rdi`. -/
def move (p : Perms 64) (n : ℕ) (r : Regs) (m : Mem 64) : Copying (Mem 64) :=
  match p.probe .read r.rsi n with
  | some t => .error (t,m)
  | none =>
    match p.probe .write r.rdi n with
    | some t => .error (t,m)
    | none => .ok (m.fill r.rdi n fun i => m (r.rsi+BitVec.ofNat 64 i))

def transfer (p : Perms 64) (n : ℕ) (s : Regs × Mem 64) : Copying (Regs × Mem 64) :=
  (move p n s.1 s.2).map fun m => (s.1.advance n,m)

lemma advance_lt {r : Regs} (h : 16#64 ≤ r.rdx) : (r.advance 16).rdx.toNat < r.rdx.toNat := by
  have h' : 16 ≤ r.rdx.toNat := h
  change (r.rdx-16#64).toNat < _
  rw [BitVec.toNat_sub_of_le h]
  change r.rdx.toNat-16 < _
  omega

/-- The loop at the first label, entered with at least 16 bytes to go. -/
def loop16 (p : Perms 64) (r : Regs) (h : 16#64 ≤ r.rdx) (m : Mem 64) :
    Copying (Regs × Mem 64) :=
  have := advance_lt h
  match move p 16 r m with
  | .error t => .error t
  | .ok m =>
    if h' : 16#64 ≤ (r.advance 16).rdx then loop16 p (r.advance 16) h' m
    else .ok (r.advance 16,m)
termination_by r.rdx.toNat

/-- One move of `n` bytes behind a conditional jump on `rdx`. -/
def moveUnless (p : Perms 64) (jump : Word → Prop) [DecidablePred jump] (n : ℕ)
    (s : Regs × Mem 64) : Copying (Regs × Mem 64) :=
  if jump s.1.rdx then .ok s else transfer p n s

/-- The moves from label 3 on; the registers are dead after the last one. -/
def tail (p : Perms 64) (s : Regs × Mem 64) : Copying (Regs × Mem 64) := do
  let s ← moveUnless p (· ≤ 8#64) 8 s
  let s ← moveUnless p (· < 4#64) 4 s
  let s ← moveUnless p (· < 2#64) 2 s
  moveUnless p (· < 1#64) 1 s

lemma le_of_not_le {r : Regs} (h : ¬ r.rdx ≤ 16#64) : 16#64 ≤ r.rdx := by
  rw [BitVec.le_def] at *
  omega

def memcpyExplicit (p : Perms 64) (dest src len : Word) (m : Mem 64) :
    Copying (Mem 64) :=
  let r : Regs := ⟨dest,src,len⟩
  ((if h : r.rdx ≤ 16#64 then .ok (r,m) else loop16 p r (le_of_not_le h) m) >>= tail p).map
    Prod.snd

/-- The next `k` bytes may be read through `rsi` and written through `rdi`. -/
def Regs.Open (p : Perms 64) (r : Regs) (k : ℕ) : Prop :=
  p.Allows .read r.rsi k ∧ p.Allows .write r.rdi k

/-- The computation touches the next `k` bytes on both sides and no others: it gets through when
all of them are open, and traps otherwise. -/
def Covers (p : Perms 64) (x : Copying (Regs × Mem 64)) (r : Regs) (k : ℕ) : Prop :=
  (r.Open p k → ∃ m, x = .ok (r.advance k,m)) ∧ (¬ r.Open p k → ∃ t, x = .error t)

lemma advance_zero (r : Regs) : r.advance 0 = r := by simp [Regs.advance]

lemma advance_add (r : Regs) (a b : ℕ) : (r.advance a).advance b = r.advance (a+b) := by
  simp only [Regs.advance,BitVec.ofNat_add,BitVec.add_assoc,Regs.mk.injEq,true_and]
  rw [BitVec.sub_sub]

lemma open_add {p : Perms 64} {r : Regs} {a b : ℕ} :
    r.Open p (a+b) ↔ r.Open p a ∧ (r.advance a).Open p b := by
  simp only [Regs.Open,allows_add,Regs.advance]
  tauto

lemma advance_rdx {r : Regs} {n : ℕ} (h : n ≤ r.rdx.toNat) :
    (r.advance n).rdx.toNat = r.rdx.toNat-n := by
  have hlt := r.rdx.isLt
  have hn : (BitVec.ofNat 64 n).toNat = n := by
    rw [BitVec.toNat_ofNat]
    exact Nat.mod_eq_of_lt (by omega)
  change (r.rdx-BitVec.ofNat 64 n).toNat = _
  rw [BitVec.toNat_sub_of_le (by rwa [BitVec.le_def,hn]),hn]

lemma loop16_eq (p : Perms 64) (r : Regs) (h : 16#64 ≤ r.rdx) (m : Mem 64) :
    loop16 p r h m = transfer p 16 (r,m) >>= fun s =>
      if h' : 16#64 ≤ s.1.rdx then loop16 p s.1 h' s.2 else .ok s := by
  rw [loop16,transfer]
  cases move p 16 r m <;> rfl

/-- How many bytes the routine gets to: the comparisons with 16 and 8 are off by one, so the last
byte is left out of 16 bytes and of any length that leaves 8 after the loop. -/
def covered (n : ℕ) : ℕ := if n = 16 ∨ n % 16 = 8 then n-1 else n

lemma covered_le (n : ℕ) : covered n ≤ n := by
  unfold covered
  split_ifs <;> omega

/-- What can be said of a computation that starts from `r` and `m` and moves `k` bytes, when it
holds of each move and passes through sequencing. -/
structure Stepwise (p : Perms 64)
    (R : Copying (Regs × Mem 64) → Regs → Mem 64 → ℕ → Prop) : Prop where
  ok : ∀ r m, R (.ok (r,m)) r m 0
  transfer : ∀ n r m, R (transfer p n (r,m)) r m n
  bind : ∀ {x f r m a b}, R x r m a → (∀ m', R (f (r.advance a,m')) (r.advance a) m' b) →
    R (x >>= f) r m (a+b)

namespace Stepwise

variable {p : Perms 64} {R : Copying (Regs × Mem 64) → Regs → Mem 64 → ℕ → Prop}

lemma moveUnless (hR : Stepwise p R) (jump : Word → Prop) [DecidablePred jump] (n : ℕ) (r : Regs)
    (m : Mem 64) : R (moveUnless p jump n (r,m)) r m (if jump r.rdx then 0 else n) := by
  unfold Access.moveUnless
  by_cases hc : jump r.rdx
  · simp only [hc,if_true]
    exact hR.ok r m
  · simp only [hc,if_false]
    exact hR.transfer n r m

/-- The loop moves every whole group of 16. -/
lemma loop16 (hR : Stepwise p R) {r : Regs} (h : 16#64 ≤ r.rdx) (m : Mem 64) :
    R (loop16 p r h m) r m (16*(r.rdx.toNat/16)) := by
  induction hn : r.rdx.toNat using Nat.strong_induction_on generalizing r m with
  | _ n ih =>
    have hle : 16 ≤ r.rdx.toNat := h
    have hrest := advance_rdx hle
    have hsplit : 16*(n/16) = 16+16*((n-16)/16) := by omega
    rw [loop16_eq,hsplit]
    apply hR.bind (hR.transfer 16 r m)
    intro m'
    by_cases h' : 16#64 ≤ (r.advance 16).rdx
    · simp only [h',dif_pos]
      exact ih (n-16) (by omega) h' m' (by omega)
    · have hlt : n-16 < 16 := by
        have : ¬ 16 ≤ (r.advance 16).rdx.toNat := h'
        omega
      simp only [h',dif_neg,not_false_eq_true,Nat.div_eq_of_lt hlt]
      exact hR.ok _ m'

lemma tail (hR : Stepwise p R) {r : Regs} (m : Mem 64) (h : r.rdx.toNat ≤ 16) :
    R (tail p (r,m)) r m
      (if r.rdx.toNat = 16 ∨ r.rdx.toNat = 8 then r.rdx.toNat-1 else r.rdx.toNat) := by
  let a := if r.rdx ≤ 8#64 then 0 else 8
  let b := if (r.advance a).rdx < 4#64 then 0 else 4
  let c := if ((r.advance a).advance b).rdx < 2#64 then 0 else 2
  let d := if (((r.advance a).advance b).advance c).rdx < 1#64 then 0 else 1
  have ha : a = if r.rdx.toNat ≤ 8 then 0 else 8 := rfl
  have hra : (r.advance a).rdx.toNat = r.rdx.toNat-a := advance_rdx (by split_ifs at ha <;> omega)
  have hb : b = if (r.advance a).rdx.toNat < 4 then 0 else 4 := rfl
  have hrb : ((r.advance a).advance b).rdx.toNat = (r.advance a).rdx.toNat-b :=
    advance_rdx (by split_ifs at hb <;> omega)
  have hc : c = if ((r.advance a).advance b).rdx.toNat < 2 then 0 else 2 := rfl
  have hrc : (((r.advance a).advance b).advance c).rdx.toNat =
      ((r.advance a).advance b).rdx.toNat-c := advance_rdx (by split_ifs at hc <;> omega)
  have hd : d = if (((r.advance a).advance b).advance c).rdx.toNat < 1 then 0 else 1 := rfl
  have hk : (if r.rdx.toNat = 16 ∨ r.rdx.toNat = 8 then r.rdx.toNat-1 else r.rdx.toNat) =
      a+(b+(c+d)) := by
    rw [hra] at hb hrb
    rw [hrb] at hc hrc
    rw [hrc] at hd
    clear_value a b c d
    split_ifs at * <;> omega
  rw [hk,Access.tail]
  apply hR.bind (hR.moveUnless _ 8 r m)
  intro m₁
  apply hR.bind (hR.moveUnless _ 4 _ m₁)
  intro m₂
  apply hR.bind (hR.moveUnless _ 2 _ m₂)
  intro m₃
  exact hR.moveUnless _ 1 _ m₃

/-- The whole routine, up to dropping the registers. -/
lemma memcpy (hR : Stepwise p R) (dest src len : Word) (m : Mem 64) :
    ∃ x, R x ⟨dest,src,len⟩ m (covered len.toNat) ∧
      memcpyExplicit p dest src len m = x.map Prod.snd := by
  let r : Regs := ⟨dest,src,len⟩
  refine ⟨(if h : r.rdx ≤ 16#64 then .ok (r,m) else Access.loop16 p r (le_of_not_le h) m) >>=
    Access.tail p,?_,rfl⟩
  by_cases h : r.rdx ≤ 16#64
  · have hle : len.toNat ≤ 16 := h
    have hk : covered len.toNat =
        0+(if len.toNat = 16 ∨ len.toNat = 8 then len.toNat-1 else len.toNat) := by
      unfold covered
      split_ifs <;> omega
    simp only [h,dif_pos]
    rw [hk]
    apply hR.bind (hR.ok r m)
    intro m'
    rw [advance_zero]
    exact hR.tail m' hle
  · have hlt : 16 < len.toNat := by
      rw [BitVec.le_def] at h
      exact Nat.lt_of_not_le h
    have hrest : (r.advance (16*(r.rdx.toNat/16))).rdx.toNat = len.toNat % 16 := by
      rw [advance_rdx (Nat.mul_div_le _ _)]
      change len.toNat-16*(len.toNat/16) = _
      omega
    have hk : covered len.toNat = 16*(r.rdx.toNat/16)+
        (if len.toNat % 16 = 16 ∨ len.toNat % 16 = 8 then len.toNat % 16-1 else len.toNat % 16) := by
      change _ = 16*(len.toNat/16)+_
      unfold covered
      split_ifs <;> omega
    simp only [h,dif_neg,not_false_eq_true]
    rw [hk]
    apply hR.bind (hR.loop16 (le_of_not_le h) m)
    intro m'
    rw [← hrest]
    exact hR.tail m' (by omega)

end Stepwise

lemma covers_stepwise (p : Perms 64) : Stepwise p fun x r _ k => Covers p x r k where
  ok r m := by
    refine ⟨fun _ => ⟨m,by rw [advance_zero]⟩,fun h => absurd ?_ h⟩
    exact ⟨fun i hi => absurd hi (by omega),fun i hi => absurd hi (by omega)⟩
  transfer n r m := by
    constructor
    · rintro ⟨hr,hw⟩
      rw [← probe_eq_none_iff] at hr hw
      exact ⟨_,by simp only [transfer,move,hr,hw]; rfl⟩
    · intro h
      cases hr : p.probe .read r.rsi n with
      | some t => exact ⟨(t,m),by simp only [transfer,move,hr]; rfl⟩
      | none =>
        cases hw : p.probe .write r.rdi n with
        | some t => exact ⟨(t,m),by simp only [transfer,move,hr,hw]; rfl⟩
        | none => exact absurd ⟨probe_eq_none_iff.mp hr,probe_eq_none_iff.mp hw⟩ h
  bind {x f r m a b} hx hf := by
    by_cases ha : r.Open p a
    · obtain ⟨m,rfl⟩ := hx.1 ha
      obtain ⟨hok,herr⟩ := hf m
      refine ⟨fun h => ?_,fun h => ?_⟩
      · obtain ⟨m',hm'⟩ := hok (open_add.mp h).2
        exact ⟨m',by rw [← advance_add]; exact hm'⟩
      · exact herr fun hb => h (open_add.mpr ⟨ha,hb⟩)
    · obtain ⟨t,rfl⟩ := hx.2 ha
      exact ⟨fun h => absurd (open_add.mp h).1 ha,fun _ => ⟨t,rfl⟩⟩

/-- The routine traps exactly when one of the bytes it gets to is closed. -/
theorem memcpyExplicit_covers (p : Perms 64) (dest src len : Word) (m : Mem 64) :
    ((⟨dest,src,len⟩ : Regs).Open p (covered len.toNat) →
      ∃ m', memcpyExplicit p dest src len m = .ok m') ∧
    (¬ (⟨dest,src,len⟩ : Regs).Open p (covered len.toNat) →
      ∃ t, memcpyExplicit p dest src len m = .error t) := by
  obtain ⟨x,hcov,hx⟩ := (covers_stepwise p).memcpy dest src len m
  refine ⟨fun h => ?_,fun h => ?_⟩
  · obtain ⟨m',hm'⟩ := hcov.1 h
    exact ⟨m',by rw [hx,hm']; rfl⟩
  · obtain ⟨t,ht⟩ := hcov.2 h
    exact ⟨t,by rw [hx,ht]; rfl⟩

/-- No byte of the source range is one of the destination range. -/
def Regs.Disjoint (r : Regs) (k : ℕ) : Prop :=
  ∀ i < k, ∀ j < k, r.rsi+BitVec.ofNat 64 i ≠ r.rdi+BitVec.ofNat 64 j

/-- The next `k` bytes, when they are open and the ranges disjoint, are copied over. -/
def Copies (p : Perms 64) (x : Copying (Regs × Mem 64)) (r : Regs) (m : Mem 64) (k : ℕ) : Prop :=
  r.Open p k → r.Disjoint k → k ≤ 2^64 →
    x = .ok (r.advance k,m.fill r.rdi k fun i => m (r.rsi+BitVec.ofNat 64 i))

lemma copies_stepwise (p : Perms 64) : Stepwise p (Copies p) where
  ok r m := by
    intro _ _ _
    have hfill : (m.fill r.rdi 0 fun i => m (r.rsi+BitVec.ofNat 64 i)) = m := by
      funext x
      simp [Mem.fill]
    rw [advance_zero,hfill]
  transfer n r m := by
    rintro ⟨hr,hw⟩ _ _
    rw [← probe_eq_none_iff] at hr hw
    simp only [transfer,move,hr,hw]
    rfl
  bind {x f r m a b} hx hf := by
    intro hopen hdis hk
    obtain ⟨ha,hb⟩ := open_add.mp hopen
    have hdisa : r.Disjoint a := fun i hi j hj => hdis i (by omega) j (by omega)
    have hdisb : (r.advance a).Disjoint b := by
      intro i hi j hj
      simp only [Regs.advance,BitVec.add_assoc,← BitVec.ofNat_add]
      exact hdis (a+i) (by omega) (a+j) (by omega)
    rw [hx ha hdisa (by omega)]
    refine (hf _ hb hdisb (by omega)).trans ?_
    rw [advance_add]
    congr 2
    change Mem.fill _ (r.rdi+BitVec.ofNat 64 a) b _ = _
    rw [fill_fill _ _ _ _ hk]
    apply fill_congr
    intro i hi
    by_cases hia : i < a
    · rw [if_pos hia]
    · -- the bytes still to be read were not written by the first part
      rw [if_neg hia]
      have haddr : (r.advance a).rsi+BitVec.ofNat 64 (i-a) = r.rsi+BitVec.ofNat 64 i := by
        simp only [Regs.advance,BitVec.add_assoc,← BitVec.ofNat_add,
          Nat.add_sub_cancel' (Nat.le_of_not_lt hia)]
      rw [haddr]
      exact fill_of_ne m _ fun j hj => hdis i hi j (by omega)

/-- The routine copies all the bytes it gets to and changes no others. -/
theorem memcpyExplicit_copies {p : Perms 64} {dest src len : Word} (m : Mem 64)
    (hopen : (⟨dest,src,len⟩ : Regs).Open p (covered len.toNat))
    (hdis : (⟨dest,src,len⟩ : Regs).Disjoint (covered len.toNat)) :
    memcpyExplicit p dest src len m =
      .ok (m.fill dest (covered len.toNat) fun i => m (src+BitVec.ofNat 64 i)) := by
  obtain ⟨x,hcopy,hx⟩ := (copies_stepwise p).memcpy dest src len m
  have hle : covered len.toNat ≤ 2^64 := (covered_le _).trans len.isLt.le
  rw [hx,hcopy hopen hdis hle]
  rfl

section Whole

/-- A full byte copy: the destination reads as the source did and nothing else has changed. -/
def FullCopy (p : Perms 64) (dest src len : Word) (m : Mem 64) : Prop :=
  ∃ m', memcpyExplicit p dest src len m = .ok m' ∧
    (∀ i < len.toNat, m' (dest+BitVec.ofNat 64 i) = m (src+BitVec.ofNat 64 i)) ∧
    ∀ x, (∀ i < len.toNat, x ≠ dest+BitVec.ofNat 64 i) → m' x = m x

variable {p : Perms 64} {dest src len : Word} {m : Mem 64}

lemma Regs.Open.mono {r : Regs} {j k : ℕ} (h : r.Open p k) (hj : j ≤ k) : r.Open p j :=
  ⟨Allows.mono h.1 hj,Allows.mono h.2 hj⟩

lemma Regs.Disjoint.mono {r : Regs} {j k : ℕ} (h : r.Disjoint k) (hj : j ≤ k) : r.Disjoint j :=
  fun a ha b hb => h a (ha.trans_le hj) b (hb.trans_le hj)

/-- What the routine leaves, byte by byte of the destination. -/
lemma memcpyExplicit_bytes (hopen : (⟨dest,src,len⟩ : Regs).Open p len.toNat)
    (hdis : (⟨dest,src,len⟩ : Regs).Disjoint len.toNat) :
    ∃ m', memcpyExplicit p dest src len m = .ok m' ∧
      (∀ i < len.toNat, m' (dest+BitVec.ofNat 64 i) =
        if i < covered len.toNat then m (src+BitVec.ofNat 64 i) else m (dest+BitVec.ofNat 64 i)) ∧
      ∀ x, (∀ i < len.toNat, x ≠ dest+BitVec.ofNat 64 i) → m' x = m x := by
  have hle := covered_le len.toNat
  refine ⟨_,memcpyExplicit_copies m (hopen.mono hle) (hdis.mono hle),fun i hi => ?_,fun x hx => ?_⟩
  · exact fill_ofNat m dest _ (hi.trans len.isLt)
  · exact fill_of_ne m _ fun j hj => hx j (hj.trans_le hle)

/-- The byte left out, when there is one, keeps what the destination had. -/
lemma FullCopy.last (hopen : (⟨dest,src,len⟩ : Regs).Open p len.toNat)
    (hdis : (⟨dest,src,len⟩ : Regs).Disjoint len.toNat) (h : FullCopy p dest src len m)
    (hlen : len.toNat = 16 ∨ len.toNat%16 = 8) :
    m (dest+BitVec.ofNat 64 (len.toNat-1)) = m (src+BitVec.ofNat 64 (len.toNat-1)) := by
  obtain ⟨m',hm',hcopy,-⟩ := h
  obtain ⟨m'',hm'',hbytes,-⟩ := memcpyExplicit_bytes (m := m) hopen hdis
  rw [hm'',Except.ok.injEq] at hm'
  subst hm'
  have hlast : len.toNat-1 < len.toNat := by omega
  have hmiss : ¬ len.toNat-1 < covered len.toNat := by
    rw [covered,if_pos hlen]
    omega
  rw [← hcopy _ hlast,hbytes _ hlast,if_neg hmiss]

/-- The copy is whole unless the length is 16 or leaves 8 after the loop; then the last byte has to
be right already. -/
theorem fullCopy_iff (hopen : (⟨dest,src,len⟩ : Regs).Open p len.toNat)
    (hdis : (⟨dest,src,len⟩ : Regs).Disjoint len.toNat) :
    FullCopy p dest src len m ↔
      ¬ (len.toNat = 16 ∨ len.toNat%16 = 8) ∨
        m (dest+BitVec.ofNat 64 (len.toNat-1)) = m (src+BitVec.ofNat 64 (len.toNat-1)) := by
  constructor
  · intro h
    by_cases hlen : len.toNat = 16 ∨ len.toNat%16 = 8
    · exact .inr (h.last hopen hdis hlen)
    · exact .inl hlen
  · intro h
    obtain ⟨m',hm',hbytes,hframe⟩ := memcpyExplicit_bytes (m := m) hopen hdis
    refine ⟨m',hm',fun i hi => ?_,hframe⟩
    rw [hbytes i hi]
    by_cases hcov : i < covered len.toNat
    · rw [if_pos hcov]
    · -- only the last byte can be beyond the reach of the routine
      rw [if_neg hcov]
      unfold covered at hcov
      split_ifs at hcov with hlen
      · have hi : i = len.toNat-1 := by omega
        rw [hi]
        exact h.resolve_left fun hc => hc hlen
      · exact absurd hi hcov

/-- Seventeen bytes go over whole. -/
theorem fullCopy_iff_seventeen :
    FullCopy (fun _ _ => none) 0x1000#64 0x2000#64 17#64 (fun a => a.setWidth 8) := by
  refine (fullCopy_iff ⟨fun _ _ => rfl,fun _ _ => rfl⟩ ?_).mpr (.inl (by decide))
  intro i hi j hj
  simp only [ne_eq,BitVec.toNat_eq,BitVec.toNat_add,BitVec.toNat_ofNat] at hi hj ⊢
  omega

/-- Of eight bytes the last is not copied. -/
theorem eighth_byte_missed :
    ∃ m : Mem 64, ¬ FullCopy (fun _ _ => none) 0x1000#64 0x2000#64 8#64 m := by
  refine ⟨Function.update (fun _ => 0#8) 0x2007#64 1#8,fun h => ?_⟩
  have hdis : (⟨0x1000#64,0x2000#64,8#64⟩ : Regs).Disjoint (8#64).toNat := by
    intro i hi j hj
    simp only [ne_eq,BitVec.toNat_eq,BitVec.toNat_add,BitVec.toNat_ofNat] at hi hj ⊢
    omega
  have hlast := h.last ⟨fun _ _ => rfl,fun _ _ => rfl⟩ hdis (.inr (by decide))
  exact absurd hlast (by decide)

end Whole

end WinterLily.Access
