import WinterLily.Base.Effect
import WinterLily.Base.File

/-! The two `write_str` loops: of `FdFormatter` in `wl-ld-lilium/src/io.rs` and of `Stdio` in
`wl-impl/src/ministd.rs`. The second goes on where a short write stopped; the first hands the whole
string to the kernel again. -/
namespace WinterLily.WriteStr
open WinterLily.Effect WinterLily.File

abbrev Text := List UInt8

abbrev Errno := ℕ

/-- `core::fmt::Result`. -/
abbrev FmtResult := Except Unit Unit

/-- What a descriptor was given, and what its writes returned. -/
structure Sink where
  delivered : Text
  results : List (Except Errno ℕ)
  deriving DecidableEq

/-- What `write` returns for a request of `len` bytes; the kernel takes as many of them as it has in
mind. -/
def writeResult (len : ℕ) : Reply Errno → Except Errno ℕ
  | .error e => .error e
  | .count n => .ok (min n len)

/-- `SYS_write` of `buf`. -/
def Sink.write (buf : Text) (reply : Reply Errno) (sink : Sink) : Except Errno ℕ × Sink :=
  match writeResult buf.length reply with
  | .error e => (.error e,⟨sink.delivered,sink.results++[.error e]⟩)
  | .ok n => (.ok n,⟨sink.delivered++buf.take n,sink.results++[.ok n]⟩)

section Loops

variable (replies : ℕ → Reply Errno)

/-- The loop of `FdFormatter::write_str` from round `t` on, for at most `fuel` rounds. A count
beyond what is left of the slice panics. -/
def fdLoop (s : Text) : ℕ → ℕ → Text → Sink → Outcome Sink FmtResult
  | 0,_,_,sink => .running sink
  | fuel+1,t,buf,sink =>
    if buf = [] then .pure (.ok ()) sink
    else match sink.write s (replies t) with
      | (.error _,sink) => .pure (.error ()) sink
      | (.ok n,sink) => if buf.length < n then .panic sink else fdLoop s fuel (t+1) (buf.drop n) sink

/-- `FdFormatter::write_str`. -/
def fdWriteStr (s : Text) (fuel : ℕ) (sink : Sink) : Outcome Sink FmtResult :=
  fdLoop replies s fuel 0 s sink

/-- The loop of `Stdio::write_str`. -/
def stdioLoop : ℕ → ℕ → Text → Sink → Outcome Sink FmtResult
  | 0,_,_,sink => .running sink
  | fuel+1,t,b,sink =>
    if b = [] then .pure (.ok ()) sink
    else match sink.write b (replies t) with
      | (.ok 0,sink) => .pure (.error ()) sink
      | (.ok v,sink) => if b.length < v then .panic sink else stdioLoop fuel (t+1) (b.drop v) sink
      | (.error _,sink) => .pure (.error ()) sink

/-- `Stdio::write_str`. -/
def stdioWriteStr (s : Text) (fuel : ℕ) (sink : Sink) : Outcome Sink FmtResult :=
  stdioLoop replies fuel 0 s sink

end Loops

/-- A write that got something done. -/
def Progress : Except Errno ℕ → Prop
  | .ok n => 0 < n
  | .error _ => False

/-- The call returns. If all its writes got something done it is with success, and the string was
delivered once; if one of them did not it is with an error. -/
def WritesOnce (s : Text) (call : ℕ → Sink → Outcome Sink FmtResult) : Prop :=
  ∃ fuel r sink, call fuel ⟨[],[]⟩ = .pure r sink ∧
    ((∀ x ∈ sink.results, Progress x) → r = .ok () ∧ sink.delivered = s) ∧
    ((∃ x ∈ sink.results, ¬ Progress x) → r = .error ())

section Stdio

variable (replies : ℕ → Reply Errno)

/-- What the rest of the loop does, whatever was written before. -/
structure Continues (b : Text) (sink : Sink) (r : FmtResult) (sink' : Sink) : Prop where
  ok : r = .ok () → sink'.delivered = sink.delivered++b ∧
    ∃ xs, sink'.results = sink.results++xs ∧ ∀ x ∈ xs, Progress x
  failed : r = .error () → ∃ x ∈ sink'.results, ¬ Progress x

/-- Each round gets something done or is the last one, so that a round for each byte is enough. -/
lemma stdioLoop_returns (fuel t : ℕ) (b : Text) (sink : Sink) (h : b.length < fuel) :
    ∃ r sink', stdioLoop replies fuel t b sink = .pure r sink' ∧ Continues b sink r sink' := by
  induction fuel generalizing t b sink with
  | zero => exact absurd h (Nat.not_lt_zero _)
  | succ fuel ih =>
    rw [stdioLoop]
    by_cases hb : b = []
    · refine ⟨_,_,if_pos hb,fun _ => ?_,nofun⟩
      exact ⟨by rw [hb,List.append_nil],[],by rw [List.append_nil],by simp⟩
    rw [if_neg hb]
    have hfailed : ∀ x, ¬ Progress x → ∀ out,
        Continues b sink (.error ()) ⟨out,sink.results++[x]⟩ := by
      intro x hx out
      exact ⟨nofun,fun _ => ⟨x,by simp,hx⟩⟩
    cases hreply : writeResult b.length (replies t) with
    | error e =>
      simp only [Sink.write,hreply]
      exact ⟨_,_,rfl,hfailed (.error e) id _⟩
    | ok n =>
      cases n with
      | zero =>
        simp only [Sink.write,hreply]
        exact ⟨_,_,rfl,hfailed (.ok 0) (lt_irrefl 0) _⟩
      | succ n =>
        have hle : n+1 ≤ b.length := by
          cases hr : replies t with
          | error e => rw [hr] at hreply; cases hreply
          | count k =>
            rw [hr] at hreply
            have hmin : min k b.length = n+1 := Except.ok.inj hreply
            omega
        simp only [Sink.write,hreply,if_neg (Nat.not_lt.mpr hle)]
        obtain ⟨r,sink',hrun,hok,hbad⟩ := ih (t+1) (b.drop (n+1))
          ⟨sink.delivered++b.take (n+1),sink.results++[.ok (n+1)]⟩
          (by rw [List.length_drop]; omega)
        refine ⟨r,sink',hrun,fun hr => ?_,hbad⟩
        obtain ⟨hdel,xs,hres,hxs⟩ := hok hr
        refine ⟨by rw [hdel,List.append_assoc,List.take_append_drop],.ok (n+1)::xs,?_,?_⟩
        · rw [hres,List.append_assoc]
          rfl
        · exact List.forall_mem_cons.mpr ⟨Nat.succ_pos n,hxs⟩

lemma stdio_writesOnce (s : Text) :
    WritesOnce s (stdioWriteStr replies s) := by
  obtain ⟨r,sink,hrun,hok,hbad⟩ :=
    stdioLoop_returns replies (s.length+1) 0 s ⟨[],[]⟩ (Nat.lt_succ_self _)
  refine ⟨s.length+1,r,sink,hrun,fun hall => ?_,fun hsome => ?_⟩
  · cases r with
    | ok _ => exact ⟨rfl,(hok rfl).1⟩
    | error _ =>
      obtain ⟨x,hx,hnot⟩ := hbad rfl
      exact absurd (hall x hx) hnot
  · cases r with
    | ok _ =>
      obtain ⟨-,xs,hres,hxs⟩ := hok rfl
      obtain ⟨x,hx,hnot⟩ := hsome
      rw [hres] at hx
      exact absurd (hxs x hx) hnot
    | error _ => rfl

end Stdio

section FdFormatter

variable {replies : ℕ → Reply Errno} {s : Text}

lemma fd_writesOnce_nil (replies : ℕ → Reply Errno) : WritesOnce [] (fdWriteStr replies []) :=
  ⟨1,_,_,rfl,fun _ => ⟨rfl,rfl⟩,by simp⟩

lemma fd_writesOnce_error {e : Errno} (hs : s ≠ []) (h : replies 0 = .error e) :
    WritesOnce s (fdWriteStr replies s) := by
  refine ⟨1,.error (),⟨[],[.error e]⟩,?_,fun hall => ?_,fun _ => rfl⟩
  · simp [fdWriteStr,fdLoop,hs,Sink.write,h,writeResult]
  · exact absurd (hall (.error e) (by simp)) id

lemma fd_writesOnce_whole {n : ℕ} (hs : s ≠ []) (h : replies 0 = .count n) (hn : s.length ≤ n) :
    WritesOnce s (fdWriteStr replies s) := by
  refine ⟨2,.ok (),⟨s,[.ok s.length]⟩,?_,fun _ => ⟨rfl,rfl⟩,?_⟩
  · simp [fdWriteStr,fdLoop,hs,Sink.write,h,writeResult,Nat.min_eq_right hn]
  · rintro ⟨x,hx,hnot⟩
    rw [List.mem_singleton.mp hx] at hnot
    exact absurd (List.length_pos_iff.mpr hs) hnot

/-- A kernel that takes nothing is asked again and again. -/
lemma fdLoop_stuck (fuel t : ℕ) {buf : Text} (hbuf : buf ≠ []) (sink : Sink)
    (h : ∀ t, replies t = .count 0) : (fdLoop replies s fuel t buf sink).result = .running := by
  induction fuel generalizing t sink with
  | zero => rfl
  | succ fuel ih =>
    rw [fdLoop,if_neg hbuf]
    simp only [Sink.write,h t,writeResult,Nat.zero_min,Nat.not_lt_zero,if_false,List.drop_zero]
    exact ih _ _

/-- A short write and then one of the whole string: more than what is left of the slice. -/
lemma fdWriteStr_panics (replies : ℕ → Reply Errno) {n : ℕ} (hn : n < s.length) (hpos : 0 < n)
    (h : replies 0 = .count n) (h' : replies 1 = .count s.length) (fuel : ℕ) (sink : Sink) :
    (fdWriteStr replies s fuel sink).result = .running ∨
      (fdWriteStr replies s fuel sink).result = .panic := by
  have hs : s ≠ [] := List.length_pos_iff.mp (by omega)
  have hrest : s.drop n ≠ [] := by
    rw [ne_eq,List.drop_eq_nil_iff]
    omega
  match fuel with
  | 0 => exact .inl rfl
  | 1 =>
    left
    simp [fdWriteStr,fdLoop,hs,Sink.write,h,writeResult,Nat.min_eq_left hn.le,
      Nat.not_lt.mpr hn.le,Outcome.running]
  | fuel+2 =>
    right
    have hlong : s.length-n < s.length := by omega
    simp [fdWriteStr,fdLoop,hs,hrest,Sink.write,h,h',writeResult,Nat.min_eq_left hn.le,
      Nat.not_lt.mpr hn.le,hlong,Outcome.panic]

/-- By its first write: `FdFormatter` does what it should in all that can follow if that write
fails or takes the whole string. -/
lemma fd_writesOnce_iff (s : Text) (first : Reply Errno) :
    (∀ replies, replies 0 = first → WritesOnce s (fdWriteStr replies s)) ↔
      s = [] ∨ (∃ e, first = .error e) ∨ ∃ n, first = .count n ∧ s.length ≤ n := by
  by_cases hs : s = []
  · subst hs
    exact iff_of_true (fun replies _ => fd_writesOnce_nil replies) (.inl rfl)
  cases first with
  | error e => exact iff_of_true (fun replies h => fd_writesOnce_error hs h) (.inr (.inl ⟨e,rfl⟩))
  | count n =>
    by_cases hn : s.length ≤ n
    · exact iff_of_true (fun replies h => fd_writesOnce_whole hs h hn) (.inr (.inr ⟨n,rfl,hn⟩))
    refine iff_of_false (fun hall => ?_) (by simp [hs,hn])
    by_cases hzero : n = 0
    · subst hzero
      obtain ⟨fuel,r,sink,hrun,-⟩ := hall (fun _ => .count 0) rfl
      have hstuck : (fdWriteStr (fun _ => .count 0) s fuel ⟨[],[]⟩).result = .running :=
        fdLoop_stuck fuel 0 hs ⟨[],[]⟩ fun _ => rfl
      rw [hrun] at hstuck
      cases hstuck
    · obtain ⟨fuel,r,sink,hrun,-⟩ := hall (fun t => if t = 0 then .count n else .count s.length) rfl
      have hpanics := fdWriteStr_panics (fun t => if t = 0 then .count n else .count s.length)
        (Nat.lt_of_not_le hn) (Nat.pos_of_ne_zero hzero) rfl rfl fuel ⟨[],[]⟩
      rw [hrun] at hpanics
      rcases hpanics with h | h <;> cases h

end FdFormatter

/-- `Stdio` writes every string once, whatever the kernel takes at a time, and stops with an error
at a write that gets nothing done. `FdFormatter` does if its first write fails or takes the whole
string; after a short one it depends on the next. -/
theorem write_str_iff (s : Text) :
    (∀ replies, WritesOnce s (stdioWriteStr replies s)) ∧
      ∀ first, (∀ replies, replies 0 = first → WritesOnce s (fdWriteStr replies s)) ↔
        s = [] ∨ (∃ e, first = .error e) ∨ ∃ n, first = .count n ∧ s.length ≤ n :=
  ⟨fun replies => stdio_writesOnce replies s,fd_writesOnce_iff s⟩

/-- "ab" with one byte taken at a time is written as "aa"; with one and then two, the loop panics;
and with nothing taken it does not stop. -/
theorem short_write_repeats :
    fdWriteStr (fun _ => .count 1) [0x61,0x62] 3 ⟨[],[]⟩ =
        .pure (.ok ()) ⟨[0x61,0x61],[.ok 1,.ok 1]⟩ ∧
      ¬ WritesOnce [0x61,0x62] (fdWriteStr (fun t => if t = 0 then .count 1 else .count 2)
        [0x61,0x62]) ∧
      ∀ fuel, (fdWriteStr (fun _ => .count 0) [0x61,0x62] fuel ⟨[],[]⟩).result = .running := by
  refine ⟨rfl,?_,fun fuel => fdLoop_stuck fuel 0 (by simp) _ fun _ => rfl⟩
  rintro ⟨fuel,r,sink,hrun,-⟩
  have hpanics := fdWriteStr_panics (s := [0x61,0x62])
    (fun t => if t = 0 then .count 1 else .count 2) (n := 1) (by decide) (by decide) rfl rfl fuel
    ⟨[],[]⟩
  rw [hrun] at hpanics
  rcases hpanics with h | h <;> cases h

end WinterLily.WriteStr
