import WinterLily.Loader.SearchList
import Mathlib.Data.List.Basic

/-! The texts that successive calls of `read_line_static` return: the lines of the file as long as
they fit the caller's buffer, and what is lost of it otherwise. -/
namespace WinterLily.SearchList
open WinterLily.File WinterLily.Reader WinterLily.SplitAscii

/-- Calls of `read_line_static` up to the first `Ok(None)`. -/
def readLines (root : Sysroot) (c : Text) (cap : ℕ) :
    ℕ → ℕ → World → Option (Except Errno (List Text))
  | 0,_,_ => none
  | fuel+1,t,w =>
    match readLineStatic root c cap fuel t [] w with
    | none => none
    | some (.error e,_,_) => some (.error e)
    | some (.ok none,_,_) => some (.ok [])
    | some (.ok (some line),w,t) => (readLines root c cap fuel t w).map (·.map (line::·))

section Calls

variable {root : Sysroot} {c : Text} {cap fuel t t' : ℕ} {w u : World} {line : Text}
  {texts : List Text}

lemma readLines_none (h : readLineStatic root c cap fuel t [] w = some (.ok none,u,t')) :
    readLines root c cap (fuel+1) t w = some (.ok []) := by
  rw [readLines,h]

lemma readLines_cons (h : readLineStatic root c cap fuel t [] w = some (.ok (some line),u,t'))
    (hrest : readLines root c cap fuel t' u = some (.ok texts)) :
    readLines root c cap (fuel+1) t w = some (.ok (line::texts)) := by
  rw [readLines]
  simp only [h,hrest]
  rfl

/-- A round stops the call, ends it or goes on, whatever the later rounds are. -/
lemma readLineStatic_round (c : Text) (cap : ℕ) (reply : Reply Errno) (out : Text) (w : World) :
    (∀ root : Sysroot, ∀ t, root.reply t = reply → ∀ fuel,
        readLineStatic root c cap (fuel+1) t out w = none) ∨
      (∃ x u, ∀ root : Sysroot, ∀ t, root.reply t = reply → ∀ fuel,
        readLineStatic root c cap (fuel+1) t out w = some (x,u,t+1)) ∨
      ∃ out' u, ∀ root : Sysroot, ∀ t, root.reply t = reply → ∀ fuel,
        readLineStatic root c cap (fuel+1) t out w =
          readLineStatic root c cap fuel (t+1) out' u := by
  rcases hfill : fillBuf c reply w with ⟨e | buf,v⟩
  · refine .inr (.inl ⟨.error e,v,fun root t hreply fuel => ?_⟩)
    simp only [readLineStatic,hreply,hfill]
  by_cases hempty : buf.length = 0
  · refine .inr (.inl ⟨.ok none,v,fun root t hreply fuel => ?_⟩)
    simp only [readLineStatic,hreply,hfill,if_pos hempty]
  let found := buf.findIdx? (· == newline)
  let realLen := min (found.getD buf.length) (cap-out.length)
  cases hconsume : v.consume (realLen+if found.isSome then 1 else 0) with
  | none =>
    refine .inl fun root t hreply fuel => ?_
    simp only [readLineStatic,hreply,hfill,if_neg hempty,found,realLen,hconsume]
  | some u =>
    by_cases hdone : cap-out.length < found.getD buf.length ∨ found.isSome
    · refine .inr (.inl ⟨.ok (some (out++buf.take realLen)),u,fun root t hreply fuel => ?_⟩)
      simp only [readLineStatic,hreply,hfill,if_neg hempty,found,realLen,hconsume,if_pos hdone]
    · refine .inr (.inr ⟨out++buf.take realLen,u,fun root t hreply fuel => ?_⟩)
      simp only [readLineStatic,hreply,hfill,if_neg hempty,found,realLen,hconsume,if_neg hdone]

/-- More rounds than are needed make no difference. -/
lemma readLineStatic_mono {out : Text} {g : ℕ} {x : Except Errno (Option Text) × World × ℕ}
    (h : readLineStatic root c cap fuel t out w = some x) (hg : fuel ≤ g) :
    readLineStatic root c cap g t out w = some x := by
  induction fuel generalizing g t out w with
  | zero => cases h
  | succ fuel ih =>
    obtain ⟨g,rfl⟩ := Nat.exists_eq_add_of_le' (Nat.one_le_of_lt hg)
    rcases readLineStatic_round c cap (root.reply t) out w with
      hstop | ⟨y,u,hend⟩ | ⟨out',u,hgoes⟩
    · rw [hstop root t rfl] at h
      cases h
    · rw [hend root t rfl] at h ⊢
      exact h
    · rw [hgoes root t rfl] at h ⊢
      exact ih h (by omega)

/-- Whatever the answers are, a call returns within as many rounds as there are bytes ahead and one
more, and for a line it takes at least one of them. -/
lemma readLineStatic_total {out : Text} (hw : w.Valid c) (hcap : 1 ≤ cap) (hout : out.length ≤ cap)
    (hfuel : (c.drop w.position).length < fuel) (t : ℕ) :
    ∃ y u t', readLineStatic root c cap fuel t out w = some (y,u,t') ∧
      ∀ line, y = .ok (some line) → u.Valid c ∧
        (c.drop u.position).length < (c.drop w.position).length+out.length := by
  induction fuel generalizing out w t with
  | zero => exact absurd hfuel (Nat.not_lt_zero _)
  | succ fuel ih =>
    rcases fillBuf_spec hw (root.reply t) with ⟨e,-,-,hfill⟩ | ⟨v,hfill,hv,hposition,-⟩
    · refine ⟨.error e,w,t+1,?_,by simp⟩
      rw [readLineStatic,hfill]
    by_cases havail : v.avail = 0
    · refine ⟨.ok none,v,t+1,?_,by simp⟩
      rw [readLineStatic]
      simp only [hfill,length_unread,if_pos havail]
    have hlen := hv.length_slice (Nat.le_refl v.avail)
    rw [length_slice] at hlen
    rw [← hposition,List.length_drop] at hfuel ⊢
    by_cases htake : newline ∉ v.reader.unread ∧ out.length+v.avail ≤ cap
    · obtain ⟨u,hround,hu,huposition,-⟩ := readLineStatic_take hfill hv havail htake.1 htake.2
      have hroom : (out++v.reader.unread).length ≤ cap := by
        rw [List.length_append,length_unread]
        exact htake.2
      have hshort : (c.drop u.position).length < fuel := by
        rw [List.length_drop]
        omega
      obtain ⟨y,u',t',hrun,hline⟩ := ih hu hroom hshort (t+1)
      rw [hround]
      refine ⟨y,u',t',hrun,fun line hy => ?_⟩
      obtain ⟨hu',hless⟩ := hline line hy
      simp only [List.length_drop,List.length_append,length_unread] at hless ⊢
      exact ⟨hu',by omega⟩
    · -- the round ends the call, with a newline or with a full buffer
      by_cases hmem : newline ∈ v.reader.unread
      · obtain ⟨line,more,hunread,hnot⟩ := List.eq_append_cons_of_mem hmem
        obtain ⟨u,hround,hu,huposition⟩ := readLineStatic_found hfill hv hunread hnot
        refine ⟨_,u,t+1,hround,fun _ _ => ⟨hu,?_⟩⟩
        rw [List.length_drop]
        omega
      · have hfull : cap-out.length < v.avail := by
          have := not_le.mp fun h => htake ⟨hmem,h⟩
          omega
        obtain ⟨u,hround,hu,huposition⟩ := readLineStatic_full hfill hv hmem hfull
        refine ⟨_,u,t+1,hround,fun _ _ => ⟨hu,?_⟩⟩
        rw [List.length_drop]
        omega

end Calls

section Fitting

variable {root : Sysroot} {c : Text} {cap : ℕ} {w : World}

lemma readLines_terminated (hcounts : root.Counts) {lines : List Text}
    (hlines : ∀ line ∈ lines, newline ∉ line ∧ line.length ≤ cap) (hw : w.Valid c)
    (hc : c.drop w.position = terminated newline lines) (t : ℕ) :
    ∃ bound, ∀ fuel ≥ bound, readLines root c cap fuel t w = some (.ok lines) := by
  induction lines generalizing w t with
  | nil =>
    have hnone : ∃ u t', readLineStatic root c cap 1 t [] w = some (.ok none,u,t') :=
      readLineStatic_rest hcounts List.not_mem_nil (Nat.zero_le _) Nat.one_pos hw hc t
    obtain ⟨u,t',hnone⟩ := hnone
    refine ⟨2,fun fuel hfuel => ?_⟩
    obtain ⟨fuel,rfl⟩ := Nat.exists_eq_add_of_le' (Nat.one_le_of_lt hfuel)
    exact readLines_none (readLineStatic_mono hnone (by omega))
  | cons line lines ih =>
    obtain ⟨hnewline,hlen⟩ := hlines line List.mem_cons_self
    rw [terminated_cons] at hc
    have hcap : ([] : Text).length+line.length ≤ cap := by simpa using hlen
    obtain ⟨u,t',hline,hu,hrest⟩ :=
      readLineStatic_line hcounts hnewline hcap (Nat.lt_succ_self line.length) hw hc t
    obtain ⟨bound,hbound⟩ := ih (fun l hl => hlines l (List.mem_cons_of_mem line hl)) hu hrest t'
    refine ⟨max bound (line.length+1)+1,fun fuel hfuel => ?_⟩
    obtain ⟨fuel,rfl⟩ := Nat.exists_eq_add_of_le' (Nat.one_le_of_lt hfuel)
    exact readLines_cons (readLineStatic_mono hline (by omega)) (hbound fuel (by omega))

/-- Lines that end with a newline and fit the buffer are returned one by one, however the reads come
in, and then there is none. -/
theorem readLines_eq_lines (hcounts : root.Counts) (hend : c ≠ [] → c.getLast? = some newline)
    (hfit : ∀ line ∈ linesOf c, line.length ≤ cap) :
    ∃ bound, ∀ fuel ≥ bound, readLines root c cap fuel 0 ⟨.new,0⟩ = some (.ok (linesOf c)) := by
  refine readLines_terminated hcounts (fun line hline => ⟨?_,hfit line hline⟩) (valid_new c 0) ?_ 0
  · rw [linesOf_eq] at hline
    exact not_mem_of_mem_segments hline
  · rw [linesOf_eq]
    exact (terminated_segments hend).symm

end Fitting

lemma sampleRoot_counts : sampleRoot.Counts := fun _ => ⟨3,rfl⟩

theorem readLines_eq_lines_sample :
    sampleRoot.Counts ∧ (∀ line ∈ linesOf (terminated newline outerLines), line.length ≤ 10) ∧
      ∃ bound, ∀ fuel ≥ bound,
        readLines sampleRoot (terminated newline outerLines) 10 fuel 0 ⟨.new,0⟩ =
          some (.ok (linesOf (terminated newline outerLines))) := by
  have hfit : ∀ line ∈ linesOf (terminated newline outerLines), line.length ≤ 10 := by
    rw [linesOf_eq,segments_terminated (by decide)]
    decide
  exact ⟨sampleRoot_counts,hfit,readLines_eq_lines sampleRoot_counts (by decide) hfit⟩

section Loss

/-- With `off` bytes read before tick `t`, the read that brings byte `i` ends at `e`. -/
inductive EndOfRead (root : Sysroot) (c : Text) (i : ℕ) : ℕ → ℕ → ℕ → Prop
  | brought {t off : ℕ} (h : i < off) : EndOfRead root c i t off off
  | later {t off n e : ℕ} (h : off ≤ i) (hreply : root.reply t = .count n)
      (hrest : EndOfRead root c i (t+1) (off+count c off 128 n) e) : EndOfRead root c i t off e

/-- The tick of the next read; a round that finds bytes in the buffer leaves its own unused. -/
def nextTick (t : ℕ) (w : World) : ℕ := if w.avail = 0 then t else t+1

/-- A newline comes with the read that brings byte `i`, after that byte. -/
def NewlineWith (root : Sysroot) (c : Text) (i t : ℕ) (w : World) : Prop :=
  ∃ e, EndOfRead root c i (nextTick t w) w.offset e ∧ newline ∈ slice c i (e-i)

/-- The line ahead is longer than the buffer, and the first byte that finds no room comes with the
newline. -/
def Swallows (root : Sysroot) (c : Text) (cap t : ℕ) (w : World) : Prop :=
  newline ∉ slice c w.position (cap+1) ∧ NewlineWith root c (w.position+cap) t w

variable {root : Sysroot} {c : Text} {cap i t e : ℕ} {w v : World}

lemma endOfRead_fill (hcounts : root.Counts)
    (hfill : fillBuf c (root.reply t) w = (.ok v.reader.unread,v)) (hi : w.position ≤ i) :
    EndOfRead root c i (nextTick t w) w.offset e ↔ EndOfRead root c i (t+1) v.offset e := by
  by_cases hempty : w.avail = 0
  · obtain ⟨n,hn⟩ := hcounts t
    rw [hn,fillBuf_count hempty] at hfill
    obtain rfl := (Prod.mk.inj hfill).2
    rw [nextTick,if_pos hempty,loaded_offset]
    have hoff : w.offset ≤ i := by
      rw [World.position,hempty] at hi
      exact hi
    constructor
    · rintro (hlt | ⟨-,hreply,hrest⟩)
      · exact absurd hlt (Nat.not_lt.mpr hoff)
      · rw [hn] at hreply
        cases hreply
        exact hrest
    · exact .later hoff hn
  · rw [fillBuf_buffered hempty] at hfill
    obtain rfl := (Prod.mk.inj hfill).2
    rw [nextTick,if_neg hempty]

/-- A byte that has been read came with what was read up to here. -/
lemma endOfRead_iff {off : ℕ} (h : i < off) : EndOfRead root c i t off e ↔ e = off := by
  constructor
  · rintro (_ | ⟨hle,-,-⟩)
    · rfl
    · exact absurd h (Nat.not_lt.mpr hle)
  · rintro rfl
    exact .brought h

/-- A round that fills the buffer swallows the next byte if it also finds the newline. -/
lemma readLineStatic_spill {out piece rest : Text} {b : UInt8} {fuel : ℕ}
    (hfill : fillBuf c (root.reply t) w = (.ok v.reader.unread,v)) (hv : v.Valid c)
    (hpiece : newline ∉ piece) (hcap : out.length+piece.length = cap)
    (hc : c.drop v.position = piece++b::rest) (hlt : piece.length < v.avail) :
    ∃ u, readLineStatic root c cap (fuel+1) t out w = some (.ok (some (out++piece)),u,t+1) ∧
      u.Valid c ∧
      ((newline ∈ slice c (v.position+piece.length) (v.avail-piece.length) ∧
          c.drop u.position = rest) ∨
        (newline ∉ slice c (v.position+piece.length) (v.avail-piece.length) ∧
          c.drop u.position = b::rest)) := by
  have hmore : v.reader.unread =
      piece++slice c (v.position+piece.length) (v.avail-piece.length) := by
    have htake : slice c v.position piece.length = piece := by rw [slice,hc,List.take_left]
    rw [hv.unread_eq,← Nat.add_sub_cancel' hlt.le,slice_add,htake,Nat.add_sub_cancel_left]
  have hroom : cap-out.length = piece.length := by omega
  have hafter : c.drop (v.position+piece.length) = b::rest := by
    rw [← List.drop_drop,hc,List.drop_left]
  by_cases hfound : newline ∈ slice c (v.position+piece.length) (v.avail-piece.length)
  · obtain ⟨s,r,hsr,hs⟩ := List.eq_append_cons_of_mem hfound
    have hunread : v.reader.unread = (piece++s)++newline::r := by
      rw [hmore,hsr,List.append_assoc]
    obtain ⟨u,hround,hu,huposition⟩ := readLineStatic_found hfill hv hunread
      fun h => (List.mem_append.mp h).elim hpiece hs
    rw [hroom,List.take_left] at hround
    rw [hroom,min_eq_right (by simp),← Nat.add_assoc] at huposition
    refine ⟨u,hround,hu,.inl ⟨hfound,?_⟩⟩
    rw [huposition,← List.drop_drop,hafter]
    rfl
  · have hnot : newline ∉ v.reader.unread := by
      rw [hmore]
      exact fun h => (List.mem_append.mp h).elim hpiece hfound
    obtain ⟨u,hround,hu,huposition⟩ := readLineStatic_full hfill hv hnot (hroom ▸ hlt)
    rw [hroom] at hround huposition
    rw [hmore,List.take_left] at hround
    refine ⟨u,hround,hu,.inr ⟨hfound,?_⟩⟩
    rw [huposition,hafter]

/-- A part of a line that fills the buffer is returned; the byte after it is swallowed if the
newline has come with it. -/
lemma readLineStatic_long (hcounts : root.Counts) {out piece rest : Text} {b : UInt8} {fuel : ℕ}
    (hpiece : newline ∉ piece) (hcap : out.length+piece.length = cap)
    (hfuel : piece.length < fuel) (hw : w.Valid c) (hc : c.drop w.position = piece++b::rest)
    (t : ℕ) :
    ∃ u t', readLineStatic root c cap fuel t out w = some (.ok (some (out++piece)),u,t') ∧
      u.Valid c ∧
      ((NewlineWith root c (w.position+piece.length) t w ∧ c.drop u.position = rest) ∨
        (¬ NewlineWith root c (w.position+piece.length) t w ∧ c.drop u.position = b::rest)) := by
  induction fuel generalizing piece out w t with
  | zero => exact absurd hfuel (Nat.not_lt_zero _)
  | succ fuel ih =>
    obtain ⟨v,hfill,hv,hposition,hend⟩ := fillBuf_of_counts hcounts hw t
    have hwith : NewlineWith root c (w.position+piece.length) t w ↔
        ∃ e, EndOfRead root c (w.position+piece.length) (t+1) v.offset e ∧
          newline ∈ slice c (w.position+piece.length) (e-(w.position+piece.length)) := by
      simp only [NewlineWith,endOfRead_fill hcounts hfill (Nat.le_add_right _ _)]
    rw [← hposition] at hc hend
    rw [hwith,← hposition]
    have havail : v.avail ≠ 0 := by
      intro hzero
      rw [List.drop_of_length_le (hend hzero)] at hc
      cases piece <;> cases hc
    by_cases hle : v.avail ≤ piece.length
    · -- all that has come is a part of the piece
      obtain ⟨before,after,u,rfl,hbefore,hround,hu,hdrop,huposition,huavail,huoffset⟩ :=
        readLineStatic_part hfill hv havail hpiece hcap.le hc hle
      have hpos := List.length_pos_iff.mpr hbefore
      have hlen : (out++before).length+after.length = cap := by
        rw [← hcap,List.length_append,List.length_append,Nat.add_assoc]
      have hindex : u.position+after.length = v.position+(before++after).length := by
        rw [huposition,List.length_append,Nat.add_assoc]
      rw [List.length_append] at hfuel
      have hnext := ih (fun h => hpiece (List.mem_append_right _ h)) hlen (by omega) hu hdrop (t+1)
      rw [hindex,NewlineWith,nextTick,if_pos huavail,huoffset,List.append_assoc] at hnext
      rw [hround]
      exact hnext
    · -- the byte after the piece is in the buffer
      have hlt : piece.length < v.avail := not_le.mp hle
      have hoff := hv.offset_eq
      have hbrought : v.position+piece.length < v.offset := by omega
      have hsize : v.offset-(v.position+piece.length) = v.avail-piece.length := by omega
      simp only [endOfRead_iff hbrought,exists_eq_left,hsize]
      obtain ⟨u,hround,hu,hrest⟩ := readLineStatic_spill hfill hv hpiece hcap hc hlt
      exact ⟨u,t+1,hround,hu,hrest⟩

/-- A call made after the one at tick `t` in `w` or some more. -/
inductive CallFrom (root : Sysroot) (c : Text) (cap : ℕ) : ℕ → World → ℕ → World → Prop
  | here {t : ℕ} {w : World} : CallFrom root c cap t w t w
  | later {t t' s : ℕ} {w u v : World} {line : Text}
      (hcall : readLineStatic root c cap (c.length+1) t [] w = some (.ok (some line),u,t'))
      (hrest : CallFrom root c cap t' u s v) : CallFrom root c cap t w s v

/-- No call from that one on swallows a byte. -/
def Gentle (root : Sysroot) (c : Text) (cap t : ℕ) (w : World) : Prop :=
  ∀ s v, CallFrom root c cap t w s v → ¬ Swallows root c cap s v

/-- The text is empty or ends with a newline. -/
def Closed (text : Text) : Prop := text = [] ∨ text.getLast? = some newline

/-- The text without its newlines. -/
def kept (text : Text) : Text := text.filter (· ≠ newline)

lemma gentle_of_line {t' : ℕ} {u : World} {line : Text}
    (hcall : readLineStatic root c cap (c.length+1) t [] w = some (.ok (some line),u,t')) :
    Gentle root c cap t w ↔ ¬ Swallows root c cap t w ∧ Gentle root c cap t' u := by
  constructor
  · exact fun h => ⟨h t w .here,fun s v hs => h s v (.later hcall hs)⟩
  · rintro ⟨hhere,hrest⟩ s v (_ | ⟨hcall',hs⟩)
    · exact hhere
    · rw [hcall] at hcall'
      cases hcall'
      exact hrest s v hs

lemma gentle_of_none {t' : ℕ} {u : World}
    (hcall : readLineStatic root c cap (c.length+1) t [] w = some (.ok none,u,t')) :
    Gentle root c cap t w ↔ ¬ Swallows root c cap t w := by
  constructor
  · exact fun h => h t w .here
  · rintro hhere s v (_ | ⟨hcall',-⟩)
    · exact hhere
    · rw [hcall] at hcall'
      cases hcall'

section Kept

variable {line piece rest : Text}

lemma kept_of_not_mem (h : newline ∉ line) : kept line = line := by
  rw [kept,List.filter_eq_self]
  exact fun b hb => decide_eq_true fun heq => h (heq ▸ hb)

lemma kept_append (a b : Text) : kept (a++b) = kept a++kept b := List.filter_append a b

lemma kept_line (h : newline ∉ line) : kept (line++newline::rest) = line++kept rest := by
  rw [kept_append,kept_of_not_mem h]
  rfl

lemma closed_append (a : Text) {b : Text} (hb : b ≠ []) : Closed (a++b) ↔ b.getLast? = some newline := by
  unfold Closed
  rw [List.getLast?_append_of_ne_nil a hb]
  simp [hb]

lemma closed_line : Closed (line++newline::rest) ↔ Closed rest := by
  rw [closed_append line (List.cons_ne_nil _ _)]
  unfold Closed
  by_cases hrest : rest = []
  · simp [hrest]
  · rw [List.getLast?_cons_of_ne_nil hrest]
    simp [hrest]

/-- What is ahead of a call: a line that fits, less than a line that fits, or more than fits. -/
lemma ahead_cases (cap : ℕ) (text : Text) :
    (∃ line rest, text = line++newline::rest ∧ newline ∉ line ∧ line.length ≤ cap) ∨
      (newline ∉ text ∧ text.length ≤ cap) ∨
      ∃ piece b rest, text = piece++b::rest ∧ newline ∉ piece ∧ b ≠ newline ∧
        piece.length = cap := by
  by_cases hlen : text.length ≤ cap
  · by_cases hmem : newline ∈ text
    · obtain ⟨line,rest,rfl,hline⟩ := List.eq_append_cons_of_mem hmem
      rw [List.length_append] at hlen
      exact .inl ⟨line,rest,rfl,hline,by omega⟩
    · exact .inr (.inl ⟨hmem,hlen⟩)
  · have hcap : cap < text.length := not_le.mp hlen
    have hsplit : text = text.take cap++text[cap]::text.drop (cap+1) := by
      rw [← List.drop_eq_getElem_cons,List.take_append_drop]
    have htake : (text.take cap).length = cap := List.length_take_of_le hcap.le
    by_cases hmem : newline ∈ text.take cap
    · obtain ⟨line,rest,heq,hline⟩ := List.eq_append_cons_of_mem hmem
      have hle := congrArg List.length heq
      rw [htake,List.length_append,List.length_cons] at hle
      refine .inl ⟨line,rest++text.drop cap,?_,hline,by omega⟩
      rw [← List.cons_append,← List.append_assoc,← heq,List.take_append_drop]
    · by_cases hb : text[cap] = newline
      · rw [hb] at hsplit
        exact .inl ⟨_,_,hsplit,hmem,htake.le⟩
      · exact .inr (.inr ⟨_,_,_,hsplit,hmem,hb,htake⟩)

end Kept

/-- The call at tick `t` and those after it come to an end. What they return is no longer than what
is ahead without its newlines, and is all of it exactly if nothing gets lost. -/
def Account (root : Sysroot) (c : Text) (cap t : ℕ) (w : World) : Prop :=
  ∃ texts bound, (∀ fuel ≥ bound, readLines root c cap fuel t w = some (.ok texts)) ∧
    texts.flatten.length ≤ (kept (c.drop w.position)).length ∧
    (texts.flatten = kept (c.drop w.position) ↔
      Closed (c.drop w.position) ∧ Gentle root c cap t w)

section Account

variable {t' : ℕ} {u : World} {line : Text}

lemma readLines_of_call {texts : List Text} {bound : ℕ}
    (hcall : readLineStatic root c cap (c.length+1) t [] w = some (.ok (some line),u,t'))
    (hbound : ∀ fuel ≥ bound, readLines root c cap fuel t' u = some (.ok texts)) :
    ∀ fuel ≥ max bound (c.length+1)+1,
      readLines root c cap fuel t w = some (.ok (line::texts)) := by
  intro fuel hfuel
  obtain ⟨fuel,rfl⟩ := Nat.exists_eq_add_of_le' (Nat.one_le_of_lt hfuel)
  exact readLines_cons (readLineStatic_mono hcall (by omega)) (hbound fuel (by omega))

/-- A call that returns all that it takes, newlines apart. -/
lemma Account.cons (h : Account root c cap t' u)
    (hcall : readLineStatic root c cap (c.length+1) t [] w = some (.ok (some line),u,t'))
    (hkept : kept (c.drop w.position) = line++kept (c.drop u.position))
    (hclosed : Closed (c.drop w.position) ↔ Closed (c.drop u.position))
    (hsafe : ¬ Swallows root c cap t w) : Account root c cap t w := by
  obtain ⟨texts,bound,hbound,hle,hiff⟩ := h
  refine ⟨line::texts,_,readLines_of_call hcall hbound,?_,?_⟩
  · rw [hkept,List.flatten_cons,List.length_append,List.length_append]
    exact Nat.add_le_add_left hle _
  · rw [hkept,List.flatten_cons,List.append_cancel_left_eq,hiff,hclosed,gentle_of_line hcall,
      and_iff_right hsafe]

/-- A call that swallows a byte, which no later call returns. -/
lemma Account.swallow (h : Account root c cap t' u) {b : UInt8}
    (hcall : readLineStatic root c cap (c.length+1) t [] w = some (.ok (some line),u,t'))
    (hkept : kept (c.drop w.position) = line++b::kept (c.drop u.position))
    (hswallows : Swallows root c cap t w) : Account root c cap t w := by
  obtain ⟨texts,bound,hbound,hle,-⟩ := h
  have hshort : (line::texts).flatten.length < (kept (c.drop w.position)).length := by
    rw [hkept,List.flatten_cons,List.length_append,List.length_append,List.length_cons]
    omega
  refine ⟨line::texts,_,readLines_of_call hcall hbound,hshort.le,?_⟩
  refine iff_of_false (fun heq => ?_) fun hboth => hboth.2 t w .here hswallows
  rw [heq] at hshort
  exact Nat.lt_irrefl _ hshort

/-- The last call: what it finds without a newline it does not return. -/
lemma account_none (hnot : newline ∉ c.drop w.position)
    (hcall : readLineStatic root c cap (c.length+1) t [] w = some (.ok none,u,t')) :
    Account root c cap t w := by
  have hsafe : ¬ Swallows root c cap t w := by
    rintro ⟨-,e,-,hmem⟩
    refine hnot (List.mem_of_mem_drop (i := cap) ?_)
    rw [List.drop_drop]
    exact List.mem_of_mem_take hmem
  refine ⟨[],c.length+2,fun fuel hfuel => ?_,Nat.zero_le _,?_⟩
  · obtain ⟨fuel,rfl⟩ := Nat.exists_eq_add_of_le' (Nat.one_le_of_lt hfuel)
    exact readLines_none (readLineStatic_mono hcall (by omega))
  · rw [kept_of_not_mem hnot,gentle_of_none hcall,and_iff_left hsafe]
    constructor
    · exact fun h => .inl h.symm
    · rintro (h | h)
      · exact h.symm
      · exact absurd (List.mem_of_getLast? h) hnot

end Account

lemma not_swallows_of_line {line rest : Text} (hc : c.drop w.position = line++newline::rest)
    (hfit : line.length ≤ cap) : ¬ Swallows root c cap t w := by
  rintro ⟨hnot,-⟩
  refine hnot ?_
  rw [slice,hc,List.take_append,Nat.succ_sub hfit,List.take_succ_cons]
  exact List.mem_append_right _ List.mem_cons_self

lemma swallows_iff_of_long {piece rest : Text} {b : UInt8} (hc : c.drop w.position = piece++b::rest)
    (hpiece : newline ∉ piece) (hb : b ≠ newline) (hlen : piece.length = cap) :
    Swallows root c cap t w ↔ NewlineWith root c (w.position+cap) t w := by
  refine and_iff_right ?_
  have htake : slice c w.position (cap+1) = piece++[b] := by
    rw [slice,hc,← hlen,List.take_append]
    simp
  rw [htake,List.mem_append,List.mem_singleton]
  exact not_or.mpr ⟨hpiece,fun h => hb h.symm⟩

lemma account (hcounts : root.Counts) (hcap : 1 ≤ cap) (hw : w.Valid c) (t : ℕ) :
    Account root c cap t w := by
  induction hn : (c.drop w.position).length using Nat.strong_induction_on generalizing w t with
  | _ n ih =>
    have hlength : (c.drop w.position).length < c.length+1 := by
      rw [List.length_drop]
      omega
    rcases ahead_cases cap (c.drop w.position) with
      ⟨line,rest,hc,hline,hfit⟩ | ⟨hnot,hfit⟩ | ⟨piece,b,rest,hc,hpiece,hb,hlen⟩
    · have hfuel : line.length < c.length+1 := by
        rw [hc,List.length_append] at hlength
        omega
      have hroom : ([] : Text).length+line.length ≤ cap := by simpa using hfit
      obtain ⟨u,t',hcall,hu,hrest⟩ := readLineStatic_line hcounts hline hroom hfuel hw hc t
      rw [hc,List.length_append,List.length_cons] at hn
      refine Account.cons (ih rest.length (by omega) hu t' (by rw [hrest])) hcall ?_ ?_
        (not_swallows_of_line hc hfit)
      · rw [hc,hrest,kept_line hline]
        rfl
      · rw [hc,hrest,closed_line]
    · have hroom : ([] : Text).length+(c.drop w.position).length ≤ cap := by simpa using hfit
      obtain ⟨u,t',hcall⟩ := readLineStatic_rest hcounts hnot hroom hlength hw rfl t
      exact account_none hnot hcall
    · have hfuel : piece.length < c.length+1 := by
        rw [hc,List.length_append] at hlength
        omega
      have hroom : ([] : Text).length+piece.length = cap := by simpa using hlen
      obtain ⟨u,t',hcall,hu,hwith⟩ := readLineStatic_long hcounts hpiece hroom hfuel hw hc t
      rw [hc,List.length_append,List.length_cons] at hn
      have hkept : kept (b::rest) = b::kept rest := List.filter_cons_of_pos (by simpa using hb)
      rw [hlen,← swallows_iff_of_long hc hpiece hb hlen] at hwith
      rcases hwith with ⟨hswallows,hrest⟩ | ⟨hsafe,hrest⟩
      · refine Account.swallow (b := b) (ih rest.length (by omega) hu t' (by rw [hrest])) hcall ?_
          hswallows
        rw [hc,hrest,kept_append,kept_of_not_mem hpiece,hkept]
        rfl
      · refine Account.cons (ih (b::rest).length ?_ hu t' (by rw [hrest])) hcall ?_ ?_ hsafe
        · rw [List.length_cons]
          omega
        · rw [hc,hrest,kept_append,kept_of_not_mem hpiece]
          rfl
        · have hne : b::rest ≠ [] := List.cons_ne_nil b rest
          rw [hc,hrest,closed_append piece hne,Closed,or_iff_right hne]

/-- Successive calls come to an end, and what they return is the file without its newlines exactly if
the file is empty or ends with a newline and no call swallows a byte. -/
theorem readLines_kept_iff (hcounts : root.Counts) (hcap : 1 ≤ cap) :
    ∃ texts bound, (∀ fuel ≥ bound, readLines root c cap fuel 0 ⟨.new,0⟩ = some (.ok texts)) ∧
      (texts.flatten = kept c ↔ Closed c ∧ Gentle root c cap 0 ⟨.new,0⟩) := by
  obtain ⟨texts,bound,hbound,-,hiff⟩ := account hcounts hcap (valid_new c 0) 0
  exact ⟨texts,bound,hbound,hiff⟩

theorem readLines_kept_iff_sample :
    sampleRoot.Counts ∧ ∃ texts bound,
      (∀ fuel ≥ bound,
        readLines sampleRoot (terminated newline outerLines) 10 fuel 0 ⟨.new,0⟩ = some (.ok texts)) ∧
      (texts.flatten = kept (terminated newline outerLines) ↔
        Closed (terminated newline outerLines) ∧
          Gentle sampleRoot (terminated newline outerLines) 10 0 ⟨.new,0⟩) :=
  ⟨sampleRoot_counts,readLines_kept_iff sampleRoot_counts (by decide)⟩

/-- The line `ab` without a newline is not returned. Of `abcd` with one, read three bytes at a time,
three fit the buffer, and the fourth is swallowed with the newline after it. -/
theorem text_lost :
    (∃ fuel, readLines sampleRoot [0x61,0x62] 4 fuel 0 ⟨.new,0⟩ = some (.ok [])) ∧
      kept [0x61,0x62] = [0x61,0x62] ∧
      (∃ fuel, readLines sampleRoot [0x61,0x62,0x63,0x64,newline] 3 fuel 0 ⟨.new,0⟩ =
        some (.ok [[0x61,0x62,0x63],[]])) ∧
      kept [0x61,0x62,0x63,0x64,newline] = [0x61,0x62,0x63,0x64] :=
  ⟨⟨4,rfl⟩,by decide,⟨6,rfl⟩,by decide⟩

end Loss

end WinterLily.SearchList
