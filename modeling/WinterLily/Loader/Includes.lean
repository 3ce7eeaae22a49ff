import WinterLily.Base.Transition
import WinterLily.Loader.Lines

/-! When `read_config_file` returns: the files that it comes to read for the includes of a file, and
what a cycle of them does. -/
namespace WinterLily.SearchList
open WinterLily.File WinterLily.Reader WinterLily.SplitAscii

section Structure

/-- What a part of `read_config_file` makes of the list: its result, if it returns. -/
abbrev Action := Cache → Option (Except Errno Unit × Cache)

/-- The `?` after an action. -/
def andThen (x : Option (Except Errno Unit × Cache)) (k : Action) :
    Option (Except Errno Unit × Cache) :=
  match x with
  | some (.ok (),s) => k s
  | stopped => stopped

/-- The files that an include reads, one after the other; one that cannot be opened stops it. -/
def targets (root : Sysroot) (path : Text) : List (Except Errno Text) :=
  match root.openRdonly path with
  | .ok sub => [.ok sub]
  | .error e =>
    if (find star path).isSome then
      let halves := splitOnce star path
      let parts := rsplitOnce slash halves.1
      match root.openRdonly parts.1,root.listing parts.1 with
      | .error e,_ => [.error e]
      | _,.error e => [.error e]
      | .ok _,.ok names =>
        (names.filter fun name => parts.2.isPrefixOf name && halves.2.isSuffixOf name).map
          (root.openAt parts.1)
    else [.error e]

/-- The files that a line reads. -/
def lineTargets (root : Sysroot) (line : Text) : List (Except Errno Text) :=
  ((included line).map (targets root)).getD []

def readEach (f : Text → Action) : List (Except Errno Text) → Action
  | [],s => some (.ok (),s)
  | .error e::_,s => some (.error e,s)
  | .ok c::rest,s => andThen (f c s) (readEach f rest)

/-- The list after a line that includes nothing. -/
def lineBuf (line buf : Text) : Text :=
  if stripped line = [] then buf
  else if (included line).isSome then buf
  else appendDir buf (stripped line)

variable {root : Sysroot} {f : Text → World → Action} {c line path : Text} {w : World} {s : Cache}

lemma forEachOpened_eq (g : Text → Action) (dir : Text) (names : List Text) (s : Cache) :
    forEachOpened g root dir names s = readEach g (names.map (root.openAt dir)) s := by
  induction names generalizing s with
  | nil => rfl
  | cons name names ih =>
    rw [forEachOpened,List.map_cons]
    cases root.openAt dir name with
    | error e => rfl
    | ok sub =>
      change andThen (g sub s) (forEachOpened g root dir names) = andThen (g sub s) _
      congr 1
      funext s'
      exact ih s'

lemma includePath_eq (path : Text) (s : Cache) :
    includePath f root path s = readEach (fun sub => f sub ⟨.new,0⟩) (targets root path) s := by
  have hone : ∀ sub, readEach (fun sub => f sub ⟨.new,0⟩) [.ok sub] s = f sub ⟨.new,0⟩ s := by
    intro sub
    rw [readEach]
    rcases f sub ⟨.new,0⟩ s with _ | ⟨_ | _,s'⟩ <;> rfl
  unfold includePath targets
  cases root.openRdonly path with
  | ok sub => exact (hone sub).symm
  | error e =>
    by_cases hstar : (find star path).isSome
    · simp only [hstar,if_true,expandGlob]
      cases root.openRdonly (rsplitOnce slash (splitOnce star path).1).1 with
      | error e => rfl
      | ok dir =>
        cases root.listing (rsplitOnce slash (splitOnce star path).1).1 with
        | error e => rfl
        | ok names => exact forEachOpened_eq _ _ _ _
    · simp only [hstar,Bool.false_eq_true,if_false]
      rfl

/-- A round after its line is read: the files of the line, and then the next round. -/
lemma handleLine_eq : handleLine f root c w line s =
    andThen (readEach (fun sub => f sub ⟨.new,0⟩) (lineTargets root line) ⟨lineBuf line s.buf,s.clock⟩)
      (f c w) := by
  by_cases hblank : stripped line = []
  · have hnot : included line = none := by
      cases hincl : included line with
      | none => rfl
      | some path => exact absurd hblank (stripped_ne_nil hincl)
    rw [handleLine_blank hblank,lineTargets,hnot,lineBuf,if_pos hblank]
    rfl
  · cases hincl : included line with
    | none =>
      rw [handleLine_dir hblank hincl,lineTargets,hincl,lineBuf,if_neg hblank,hincl]
      rfl
    | some path =>
      have hstrip : strip includeWord (stripped line) = some path := hincl
      rw [lineTargets,hincl,lineBuf,if_neg hblank,hincl,Option.map_some,Option.getD_some,
        Option.isSome_some,if_pos rfl,← includePath_eq]
      simp only [handleLine,stripped_eq,if_neg hblank,hstrip]
      rfl

/-- What `SYS_close` makes of the result. -/
def closeResult : Option Errno → Except Errno Unit
  | none => .ok ()
  | some e => .error e

section Rounds

variable {fuel t : ℕ} {u : World}

lemma readConfigFile_stuck (h : readLineStatic root c 256 fuel s.clock [] w = none) :
    readConfigFile root (fuel+1) c w s = none := by
  rw [readConfigFile,h]

lemma readConfigFile_error {e : Errno}
    (h : readLineStatic root c 256 fuel s.clock [] w = some (.error e,u,t)) :
    readConfigFile root (fuel+1) c w s = some (.error e,⟨s.buf,t⟩) := by
  rw [readConfigFile,h]

lemma readConfigFile_end (h : readLineStatic root c 256 fuel s.clock [] w = some (.ok none,u,t)) :
    readConfigFile root (fuel+1) c w s = some (closeResult (root.close t),⟨s.buf,t⟩) := by
  rw [readConfigFile]
  simp only [h]
  cases root.close t <;> rfl

lemma readConfigFile_line
    (h : readLineStatic root c 256 fuel s.clock [] w = some (.ok (some line),u,t)) :
    readConfigFile root (fuel+1) c w s =
      handleLine (readConfigFile root fuel) root c u line ⟨s.buf,t⟩ := by
  rw [readConfigFile,h]

end Rounds

lemma andThen_eq_some {x : Option (Except Errno Unit × Cache)} {k : Action}
    {y : Except Errno Unit × Cache} : andThen x k = some y ↔
      (∃ e s, x = some (.error e,s) ∧ y = (.error e,s)) ∨ ∃ s, x = some (.ok (),s) ∧ k s = some y := by
  rcases x with _ | ⟨e | _,s⟩
  · simp [andThen]
  · simp [andThen,eq_comm]
  · simp [andThen]

lemma andThen_andThen (x : Option (Except Errno Unit × Cache)) (k l : Action) :
    andThen (andThen x k) l = andThen x fun s => andThen (k s) l := by
  rcases x with _ | ⟨_ | _,_⟩ <;> rfl

lemma readEach_append (g : Text → Action) (before after : List (Except Errno Text)) (s : Cache) :
    readEach g (before++after) s = andThen (readEach g before s) (readEach g after) := by
  induction before generalizing s with
  | nil => rfl
  | cons x before ih =>
    cases x with
    | error e => rfl
    | ok sub =>
      rw [List.cons_append,readEach,readEach,andThen_andThen]
      congr 1
      funext s'
      exact ih s'

end Structure

section Follows

/-- The two have the same files. -/
structure SameFiles (r r' : Sysroot) : Prop where
  openRdonly : r'.openRdonly = r.openRdonly
  listing : r'.listing = r.listing
  openAt : r'.openAt = r.openAt

/-- For `n` ticks, `r'` answers from `x` on as `r` does from `t` on. -/
structure Agrees (r : Sysroot) (t : ℕ) (r' : Sysroot) (x n : ℕ) : Prop where
  reply : ∀ k < n, r'.reply (x+k) = r.reply (t+k)
  close : ∀ k, 0 < k → k ≤ n → r'.close (x+k) = r.close (t+k)

/-- Where `r'` answers as `r` does, `G` does what `F` does. -/
def Follows (r r' : Sysroot) (F G : Action) : Prop :=
  ∀ s x s₁, F s = some (x,s₁) → ∃ n, s₁.clock = s.clock+n ∧
    ∀ s', Agrees r s.clock r' s'.clock n → ∃ s₁', G s' = some (x,s₁') ∧
      s₁'.clock = s'.clock+n ∧ (s'.buf = s.buf → s₁'.buf = s₁.buf)

variable {r r' : Sysroot} {t x n m : ℕ} {F G K L : Action}

lemma Agrees.refl (r : Sysroot) (t n : ℕ) : Agrees r t r t n := ⟨fun _ _ => rfl,fun _ _ _ => rfl⟩

lemma Agrees.left (h : Agrees r t r' x (m+n)) : Agrees r t r' x m :=
  ⟨fun k hk => h.reply k (by omega),fun k hk hle => h.close k hk (by omega)⟩

lemma Agrees.right (h : Agrees r t r' x (m+n)) : Agrees r (t+m) r' (x+m) n where
  reply k hk := by
    rw [Nat.add_assoc,Nat.add_assoc]
    exact h.reply (m+k) (by omega)
  close k hk hle := by
    rw [Nat.add_assoc,Nat.add_assoc]
    exact h.close (m+k) (by omega) (by omega)

lemma targets_congr (h : SameFiles r r') (path : Text) : targets r' path = targets r path := by
  unfold targets
  rw [h.openRdonly,h.listing,h.openAt]

lemma lineTargets_congr (h : SameFiles r r') (line : Text) :
    lineTargets r' line = lineTargets r line := by
  unfold lineTargets
  congr 2
  funext path
  exact targets_congr h path

/-- An action that leaves the clock alone. -/
lemma follows_now (x : Except Errno Unit) (g : Text → Text) :
    Follows r r' (fun s => some (x,⟨g s.buf,s.clock⟩)) fun s => some (x,⟨g s.buf,s.clock⟩) := by
  rintro s y s₁ hs
  cases hs
  refine ⟨0,rfl,fun s' _ => ⟨_,rfl,rfl,fun hbuf => ?_⟩⟩
  change g s'.buf = g s.buf
  rw [hbuf]

lemma Follows.andThen (h : Follows r r' F G) (hk : Follows r r' K L) :
    Follows r r' (fun s => andThen (F s) K) fun s => andThen (G s) L := by
  intro s x s₁ hs
  rcases andThen_eq_some.mp hs with ⟨e,s₂,hF,heq⟩ | ⟨s₂,hF,hK⟩
  · obtain ⟨rfl,rfl⟩ := Prod.mk.inj heq
    obtain ⟨n,hn,hG⟩ := h s _ _ hF
    refine ⟨n,hn,fun s' hagrees => ?_⟩
    obtain ⟨s₁',hs₁',hrest⟩ := hG s' hagrees
    exact ⟨s₁',andThen_eq_some.mpr (.inl ⟨e,s₁',hs₁',rfl⟩),hrest⟩
  · obtain ⟨m,hm,hG⟩ := h s _ _ hF
    obtain ⟨n,hn,hL⟩ := hk s₂ _ _ hK
    refine ⟨m+n,by omega,fun s' hagrees => ?_⟩
    obtain ⟨s₂',hs₂',hclock,hbuf⟩ := hG s' hagrees.left
    have hright : Agrees r s₂.clock r' s₂'.clock n := by
      rw [hm,hclock]
      exact hagrees.right
    obtain ⟨s₁',hs₁',hclock',hbuf'⟩ := hL s₂' hright
    exact ⟨s₁',andThen_eq_some.mpr (.inr ⟨s₂',hs₂',hs₁'⟩),by omega,fun heq => hbuf' (hbuf heq)⟩

lemma follows_readEach {f g : Text → Action} (h : ∀ sub, Follows r r' (f sub) (g sub))
    (xs : List (Except Errno Text)) : Follows r r' (readEach f xs) (readEach g xs) := by
  induction xs with
  | nil => exact follows_now (.ok ()) id
  | cons x xs ih =>
    cases x with
    | error e => exact follows_now (.error e) id
    | ok sub => exact (h sub).andThen ih

/-- A line is read in at least one round, and depends on the answers to its rounds only. -/
lemma readLineStatic_follows {c out : Text} {cap fuel t₁ : ℕ} {w u : World}
    {y : Except Errno (Option Text)}
    (h : readLineStatic r c cap fuel t out w = some (y,u,t₁)) :
    ∃ n, 0 < n ∧ t₁ = t+n ∧ ∀ r' x, (∀ k < n, r'.reply (x+k) = r.reply (t+k)) → ∀ g ≥ fuel,
      readLineStatic r' c cap g x out w = some (y,u,x+n) := by
  induction fuel generalizing t out w with
  | zero => cases h
  | succ fuel ih =>
    rcases readLineStatic_round c cap (r.reply t) out w with
      hstop | ⟨z,v,hend⟩ | ⟨out',v,hgoes⟩
    · rw [hstop r t rfl] at h
      cases h
    · rw [hend r t rfl] at h
      cases h
      refine ⟨1,Nat.one_pos,rfl,fun r' x hreply g hg => ?_⟩
      obtain ⟨g,rfl⟩ := Nat.exists_eq_add_of_le' (Nat.one_le_of_lt hg)
      exact hend r' x (hreply 0 Nat.one_pos) g
    · rw [hgoes r t rfl] at h
      obtain ⟨n,-,hn,hrest⟩ := ih h
      refine ⟨n+1,Nat.succ_pos n,by omega,fun r' x hreply g hg => ?_⟩
      obtain ⟨g,rfl⟩ := Nat.exists_eq_add_of_le' (Nat.one_le_of_lt hg)
      rw [hgoes r' x (hreply 0 (Nat.succ_pos n)),hrest r' (x+1) ?_ g (by omega),Nat.add_assoc,
        Nat.add_comm 1 n]
      intro k hk
      rw [Nat.add_assoc,Nat.add_assoc,Nat.add_comm 1 k]
      exact hreply (k+1) (by omega)

lemma follows_handleLine (hfiles : SameFiles r r') {f g : Text → World → Action}
    (h : ∀ c w, Follows r r' (f c w) (g c w)) (c : Text) (w : World) (line : Text) :
    Follows r r' (handleLine f r c w line) (handleLine g r' c w line) := by
  have hbuf : Follows r r' (fun s => some (.ok (),⟨lineBuf line s.buf,s.clock⟩)) fun s =>
      some (.ok (),⟨lineBuf line s.buf,s.clock⟩) := follows_now (.ok ()) (lineBuf line)
  have heach := follows_readEach (fun sub => h sub ⟨.new,0⟩) (lineTargets r line)
  have hboth := (hbuf.andThen heach).andThen (h c w)
  intro s x s₁ hs
  rw [handleLine_eq] at hs
  obtain ⟨n,hn,hrest⟩ := hboth s x s₁ hs
  refine ⟨n,hn,fun s' hagrees => ?_⟩
  rw [handleLine_eq,lineTargets_congr hfiles]
  exact hrest s' hagrees

/-- What `read_config_file` does depends on the answers to its own reads and closes only, and more
rounds than are needed make no difference. -/
lemma readConfigFile_follows (hfiles : SameFiles r r') {fuel g : ℕ} (hg : fuel ≤ g) (c : Text)
    (w : World) : Follows r r' (readConfigFile r fuel c w) (readConfigFile r' g c w) := by
  induction fuel generalizing g c w with
  | zero =>
    intro s x s₁ hs
    cases hs
  | succ fuel ih =>
    obtain ⟨g,rfl⟩ := Nat.exists_eq_add_of_le' (Nat.one_le_of_lt hg)
    intro s x s₁ hs
    cases hline : readLineStatic r c 256 fuel s.clock [] w with
    | none =>
      rw [readConfigFile_stuck hline] at hs
      cases hs
    | some z =>
      obtain ⟨y,u,t⟩ := z
      obtain ⟨n,hpos,rfl,hread⟩ := readLineStatic_follows hline
      have hline' : ∀ s' : Cache, Agrees r s.clock r' s'.clock n →
          readLineStatic r' c 256 g s'.clock [] w = some (y,u,s'.clock+n) :=
        fun s' hagrees => hread r' s'.clock hagrees.reply g (by omega)
      rcases y with e | _ | line
      · rw [readConfigFile_error hline] at hs
        cases hs
        refine ⟨n,rfl,fun s' hagrees => ⟨⟨s'.buf,s'.clock+n⟩,?_,rfl,id⟩⟩
        exact readConfigFile_error (hline' s' hagrees)
      · rw [readConfigFile_end hline] at hs
        cases hs
        refine ⟨n,rfl,fun s' hagrees => ⟨⟨s'.buf,s'.clock+n⟩,?_,rfl,id⟩⟩
        rw [readConfigFile_end (hline' s' hagrees),hagrees.close n hpos (Nat.le_refl n)]
      · rw [readConfigFile_line hline] at hs
        obtain ⟨m,hm,hrest⟩ :=
          follows_handleLine hfiles (fun c w => ih (Nat.le_of_succ_le_succ hg) c w) c u line _ x s₁ hs
        refine ⟨n+m,by rw [hm,Nat.add_assoc],fun s' hagrees => ?_⟩
        obtain ⟨s₁',hs₁',hclock,hbuf⟩ := hrest ⟨s'.buf,s'.clock+n⟩ hagrees.right
        refine ⟨s₁',?_,by rw [hclock,Nat.add_assoc],hbuf⟩
        rw [readConfigFile_line (hline' s' hagrees.left)]
        exact hs₁'

lemma Follows.eq {r : Sysroot} (h : Follows r r F G) {s : Cache} {y : Except Errno Unit × Cache}
    (hs : F s = some y) : G s = some y := by
  obtain ⟨x,s₁⟩ := y
  obtain ⟨n,hn,hG⟩ := h s x s₁ hs
  obtain ⟨s₁',hs₁',hclock,hbuf⟩ := hG s (Agrees.refl r s.clock n)
  have heq : s₁' = s₁ := by
    cases s₁
    cases s₁'
    simp only [Cache.mk.injEq]
    exact ⟨hbuf rfl,hclock.trans hn.symm⟩
  rw [hs₁',heq]

lemma SameFiles.refl (r : Sysroot) : SameFiles r r := ⟨rfl,rfl,rfl⟩

end Follows

section Entering

/-- `read_config_file` on a file that has just been opened. -/
def readOpened (root : Sysroot) (fuel : ℕ) (c : Text) : Action := readConfigFile root fuel c ⟨.new,0⟩

/-- Reading a file from `w` on comes to read another one for one of its lines; what it includes
before that is read without an error. -/
inductive Enters (root : Sysroot) (c : Text) : World → Cache → Text → Cache → Prop
  | line {fuel t : ℕ} {w u : World} {s s' : Cache} {line sub : Text}
      {before after : List (Except Errno Text)}
      (hread : readLineStatic root c 256 fuel s.clock [] w = some (.ok (some line),u,t))
      (htargets : lineTargets root line = before++.ok sub::after)
      (hbefore : readEach (readOpened root fuel) before ⟨lineBuf line s.buf,t⟩ = some (.ok (),s')) :
      Enters root c w s sub s'
  | later {fuel t : ℕ} {w u : World} {s s₁ s' : Cache} {line sub : Text}
      (hread : readLineStatic root c 256 fuel s.clock [] w = some (.ok (some line),u,t))
      (hline : readEach (readOpened root fuel) (lineTargets root line) ⟨lineBuf line s.buf,t⟩ =
        some (.ok (),s₁))
      (hrest : Enters root c u s₁ sub s') : Enters root c w s sub s'

/-- The call comes to an end. -/
def Returns (root : Sysroot) (c : Text) (w : World) (s : Cache) : Prop :=
  ∃ fuel x, readConfigFile root fuel c w s = some x

variable {root : Sysroot} {c d line : Text} {w u : World} {s s' : Cache} {fuel g n t : ℕ}
  {x y : Except Errno Unit × Cache}

lemma readConfigFile_mono (h : readConfigFile root fuel c w s = some x) (hg : fuel ≤ g) :
    readConfigFile root g c w s = some x :=
  (readConfigFile_follows (SameFiles.refl root) hg c w).eq h

lemma readEach_mono {xs : List (Except Errno Text)}
    (h : readEach (readOpened root fuel) xs s = some x) (hg : fuel ≤ g) :
    readEach (readOpened root g) xs s = some x :=
  (follows_readEach (fun sub => readConfigFile_follows (SameFiles.refl root) hg sub ⟨.new,0⟩) xs).eq h

lemma readEach_unique {xs : List (Except Errno Text)}
    (h : readEach (readOpened root fuel) xs s = some x)
    (h' : readEach (readOpened root g) xs s = some y) : x = y := by
  have hmax := readEach_mono h (le_max_left fuel g)
  rw [readEach_mono h' (le_max_right fuel g)] at hmax
  exact (Option.some.inj hmax).symm

/-- A round that leads to a result has read the line, and what the line includes. -/
lemma readConfigFile_round
    (hread : readLineStatic root c 256 fuel s.clock [] w = some (.ok (some line),u,t))
    (h : readConfigFile root (n+1) c w s = some x) :
    andThen (readEach (readOpened root n) (lineTargets root line) ⟨lineBuf line s.buf,t⟩)
      (readConfigFile root n c u) = some x := by
  cases hread' : readLineStatic root c 256 n s.clock [] w with
  | none =>
    rw [readConfigFile_stuck hread'] at h
    cases h
  | some z =>
    have hmax := readLineStatic_mono hread (le_max_left fuel n)
    rw [readLineStatic_mono hread' (le_max_right fuel n)] at hmax
    cases Option.some.inj hmax
    rw [readConfigFile_line hread',handleLine_eq] at h
    exact h

/-- What a call that returns comes to read returns in fewer rounds. -/
lemma Enters.returns (h : Enters root c w s d s') (hx : readConfigFile root n c w s = some x) :
    ∃ m < n, ∃ y, readOpened root m d s' = some y := by
  induction h generalizing n x with
  | line hread htargets hbefore =>
    cases n with
    | zero => cases hx
    | succ n =>
      have hround := readConfigFile_round hread hx
      rw [htargets,readEach_append,andThen_andThen] at hround
      rcases andThen_eq_some.mp hround with ⟨e,s₂,herror,-⟩ | ⟨s₂,hok,hsub⟩
      · cases readEach_unique hbefore herror
      · cases readEach_unique hbefore hok
        rw [readEach,andThen_andThen] at hsub
        rcases andThen_eq_some.mp hsub with ⟨e,s₃,hfile,-⟩ | ⟨s₃,hfile,-⟩
        · exact ⟨n,Nat.lt_succ_self n,_,hfile⟩
        · exact ⟨n,Nat.lt_succ_self n,_,hfile⟩
  | later hread hline _ ih =>
    cases n with
    | zero => cases hx
    | succ n =>
      rcases andThen_eq_some.mp (readConfigFile_round hread hx) with
        ⟨e,s₂,herror,-⟩ | ⟨s₂,hok,hnext⟩
      · cases readEach_unique hline herror
      · cases readEach_unique hline hok
        obtain ⟨m,hm,y,hy⟩ := ih hnext
        exact ⟨m,hm.trans (Nat.lt_succ_self n),y,hy⟩

/-- The files of a line are all read if each that it comes to is. -/
lemma exists_readEach {xs : List (Except Errno Text)}
    (h : ∀ before sub after fuel s', xs = before++.ok sub::after →
      readEach (readOpened root fuel) before s = some (.ok (),s') → Returns root sub ⟨.new,0⟩ s') :
    ∃ fuel x, readEach (readOpened root fuel) xs s = some x := by
  induction xs generalizing s with
  | nil => exact ⟨0,_,rfl⟩
  | cons target xs ih =>
    cases target with
    | error e => exact ⟨0,_,rfl⟩
    | ok sub =>
      obtain ⟨fuel,⟨y,s₁⟩,hsub⟩ := h [] sub xs 0 s rfl rfl
      cases y with
      | error e => exact ⟨fuel,_,andThen_eq_some.mpr (.inl ⟨e,s₁,hsub,rfl⟩)⟩
      | ok =>
        have hrest : ∃ g x, readEach (readOpened root g) xs s₁ = some x := by
          refine ih fun before sub' after g s' hsplit hbefore => ?_
          refine h (.ok sub::before) sub' after (max fuel g) s' (by rw [hsplit]; rfl) ?_
          exact andThen_eq_some.mpr (.inr ⟨s₁,readConfigFile_mono hsub (le_max_left fuel g),
            readEach_mono hbefore (le_max_right fuel g)⟩)
        obtain ⟨g,x,hx⟩ := hrest
        exact ⟨max fuel g,x,andThen_eq_some.mpr (.inr ⟨s₁,
          readConfigFile_mono hsub (le_max_left fuel g),readEach_mono hx (le_max_right fuel g)⟩)⟩

/-- A call returns if all that it comes to read does. -/
lemma returns_of_entered (hw : w.Valid c)
    (h : ∀ d s', Enters root c w s d s' → Returns root d ⟨.new,0⟩ s') : Returns root c w s := by
  induction hn : (c.drop w.position).length using Nat.strong_induction_on generalizing w s with
  | _ n ih =>
    have htotal : ∃ y u t, readLineStatic root c 256 ((c.drop w.position).length+1) s.clock [] w =
        some (y,u,t) ∧ ∀ line, y = .ok (some line) → u.Valid c ∧
          (c.drop u.position).length < (c.drop w.position).length+([] : Text).length :=
      readLineStatic_total hw (by decide) (Nat.zero_le 256) (Nat.lt_succ_self _) s.clock
    obtain ⟨y,u,t,hread,hline⟩ := htotal
    rcases y with e | _ | line
    · exact ⟨_,_,readConfigFile_error hread⟩
    · exact ⟨_,_,readConfigFile_end hread⟩
    · obtain ⟨hu,hless⟩ := hline line rfl
      have heach : ∃ fuel x, readEach (readOpened root fuel) (lineTargets root line)
          ⟨lineBuf line s.buf,t⟩ = some x := by
        refine exists_readEach fun before sub after fuel s' hsplit hbefore => ?_
        refine h sub s' (.line (readLineStatic_mono hread (le_max_left _ fuel)) hsplit ?_)
        exact readEach_mono hbefore (le_max_right _ fuel)
      obtain ⟨fuel,⟨x,s₁⟩,heach⟩ := heach
      have hround : ∀ k ≥ fuel, (c.drop w.position).length+1 ≤ k →
          readConfigFile root (k+1) c w s =
            andThen (some (x,s₁)) (readConfigFile root k c u) := by
        intro k hk hk'
        rw [readConfigFile_line (readLineStatic_mono hread hk'),handleLine_eq]
        exact congrArg (fun z => andThen z (readConfigFile root k c u)) (readEach_mono heach hk)
      cases x with
      | error e => exact ⟨_,_,hround (max fuel _) (le_max_left _ _) (le_max_right _ _)⟩
      | ok =>
        have hnext : Returns root c u s₁ := by
          refine ih _ (by simpa [hn] using hless) hu (fun d s' hent => h d s' ?_) rfl
          exact .later (readLineStatic_mono hread (le_max_left _ fuel))
            (readEach_mono heach (le_max_right _ fuel)) hent
        obtain ⟨g,x,hx⟩ := hnext
        refine ⟨max fuel (max g ((c.drop w.position).length+1))+1,x,?_⟩
        rw [hround _ (by omega) (by omega)]
        exact readConfigFile_mono hx (by omega)

end Entering

section Cycles

open Relation

/-- The same files with other answers to the reads and closes. -/
def Sysroot.answering (root : Sysroot) (reply : ℕ → Reply Errno) (close : ℕ → Option Errno) :
    Sysroot := { root with reply := reply, close := close }

/-- One file can come to be read for a line of another: some answers lead there. -/
def Sysroot.Includes (root : Sysroot) (c d : Text) : Prop :=
  ∃ reply close s s', Enters (root.answering reply close) c ⟨.new,0⟩ s d s'

/-- What the files that there are contain. -/
def Sysroot.contents (root : Sysroot) : Set Text :=
  { c | (∃ path, root.openRdonly path = .ok c) ∨ ∃ dir name, root.openAt dir name = .ok c }

/-- A call of `read_config_file` that another one makes. -/
def Nested (root : Sysroot) (x y : Text × Cache) : Prop := Enters root x.1 ⟨.new,0⟩ x.2 y.1 y.2

variable {root r r' : Sysroot} {c d line path : Text} {w : World} {s s' s₁ : Cache}

lemma mem_contents_of_targets (h : .ok d ∈ targets root path) : d ∈ root.contents := by
  unfold targets at h
  split at h
  · next sub hopen =>
    rw [List.mem_singleton] at h
    cases h
    exact .inl ⟨path,hopen⟩
  · next e hopen =>
    split_ifs at h
    · extract_lets halves parts at h
      split at h
      · simp at h
      · simp at h
      · obtain ⟨name,-,hname⟩ := List.mem_map.mp h
        exact .inr ⟨_,name,hname⟩
    · simp at h

lemma Enters.mem_contents (h : Enters root c w s d s') : d ∈ root.contents := by
  induction h with
  | @line _ _ _ _ _ _ line sub before after _ htargets _ =>
    have hmem : .ok sub ∈ lineTargets root line := by
      rw [htargets]
      exact List.mem_append_right _ List.mem_cons_self
    unfold lineTargets at hmem
    cases hincl : included line with
    | none =>
      rw [hincl] at hmem
      cases hmem
    | some path =>
      rw [hincl] at hmem
      exact mem_contents_of_targets hmem
  | later _ _ _ ih => exact ih

lemma Enters.follows (h : Enters r c w s d s₁) (hfiles : SameFiles r r') :
    ∃ n, 0 < n ∧ s₁.clock = s.clock+n ∧ ∀ s', Agrees r s.clock r' s'.clock n →
      ∃ s₁', Enters r' c w s' d s₁' ∧ s₁'.clock = s'.clock+n := by
  have heach : ∀ fuel xs, Follows r r' (readEach (readOpened r fuel) xs)
      (readEach (readOpened r' fuel) xs) := fun fuel =>
    follows_readEach fun sub => readConfigFile_follows hfiles (Nat.le_refl fuel) sub ⟨.new,0⟩
  induction h with
  | line hread htargets hbefore =>
    obtain ⟨n,hpos,rfl,hread'⟩ := readLineStatic_follows hread
    obtain ⟨m,hm,hbefore'⟩ := heach _ _ _ _ _ hbefore
    refine ⟨n+m,by omega,by rw [hm]; exact Nat.add_assoc _ _ _,fun s' hagrees => ?_⟩
    obtain ⟨s₁',hs₁',hclock,-⟩ := hbefore' ⟨lineBuf _ s'.buf,s'.clock+n⟩ hagrees.right
    rw [← lineTargets_congr hfiles] at htargets
    refine ⟨s₁',.line (hread' r' _ hagrees.left.reply _ (Nat.le_refl _)) htargets hs₁',?_⟩
    rw [hclock]
    exact Nat.add_assoc _ _ _
  | later hread hline _ ih =>
    obtain ⟨n,hpos,rfl,hread'⟩ := readLineStatic_follows hread
    obtain ⟨m,hm,hline'⟩ := heach _ _ _ _ _ hline
    obtain ⟨k,-,hk,hrest⟩ := ih
    change _ = _+n+m at hm
    refine ⟨n+m+k,by omega,by omega,fun s' hagrees => ?_⟩
    obtain ⟨s₂',hs₂',hclock,-⟩ := hline' ⟨lineBuf _ s'.buf,s'.clock+n⟩ hagrees.left.right
    change _ = s'.clock+n+m at hclock
    rw [← lineTargets_congr hfiles] at hs₂'
    have hright := hagrees.right
    rw [← Nat.add_assoc,← Nat.add_assoc,← hm,← hclock] at hright
    obtain ⟨s₁',hs₁',hclock'⟩ := hrest s₂' hright
    exact ⟨s₁',.later (hread' r' _ hagrees.left.left.reply _ (Nat.le_refl _)) hs₂' hs₁',by omega⟩

/-- The same along nested calls. -/
lemma nested_follows (h : TransGen (Nested r) (c,s) (d,s₁)) (hfiles : SameFiles r r') :
    ∃ n, 0 < n ∧ s₁.clock = s.clock+n ∧ ∀ s', Agrees r s.clock r' s'.clock n →
      ∃ s₁', TransGen (Nested r') (c,s') (d,s₁') ∧ s₁'.clock = s'.clock+n := by
  have hpair : ∀ y, TransGen (Nested r) (c,s) y → ∃ n, 0 < n ∧ y.2.clock = s.clock+n ∧
      ∀ s', Agrees r s.clock r' s'.clock n →
        ∃ s₁', TransGen (Nested r') (c,s') (y.1,s₁') ∧ s₁'.clock = s'.clock+n := by
    intro y hy
    induction hy with
    | single hone =>
      obtain ⟨n,hpos,hn,hrest⟩ := Enters.follows hone hfiles
      refine ⟨n,hpos,hn,fun s' hagrees => ?_⟩
      obtain ⟨s₁',hs₁',hclock⟩ := hrest s' hagrees
      exact ⟨s₁',.single hs₁',hclock⟩
    | tail _ hone ih =>
      obtain ⟨m,hpos,hm,hfirst⟩ := ih
      obtain ⟨n,-,hn,hlast⟩ := Enters.follows hone hfiles
      refine ⟨m+n,by omega,by omega,fun s' hagrees => ?_⟩
      obtain ⟨s₂,hs₂,hclock⟩ := hfirst s' hagrees.left
      have hright := hagrees.right
      rw [← hm,← hclock] at hright
      obtain ⟨s₁',hs₁',hclock'⟩ := hlast s₂ hright
      exact ⟨s₁',.tail hs₂ hs₁',by omega⟩
  exact hpair (d,s₁) h

lemma nested_clock (h : TransGen (Nested r) (c,s) (d,s₁)) : ∃ n, 0 < n ∧ s₁.clock = s.clock+n := by
  obtain ⟨n,hpos,hn,-⟩ := nested_follows h (SameFiles.refl r)
  exact ⟨n,hpos,hn⟩

lemma nested_transfer {n : ℕ} (h : TransGen (Nested r) (c,s) (d,s₁)) (hn : s₁.clock = s.clock+n)
    (r' : Sysroot) (hfiles : SameFiles r r') (s' : Cache)
    (hagrees : Agrees r s.clock r' s'.clock n) :
    ∃ s₁', TransGen (Nested r') (c,s') (d,s₁') ∧ s₁'.clock = s'.clock+n := by
  obtain ⟨m,-,hm,hrest⟩ := nested_follows h hfiles
  obtain rfl : m = n := by omega
  exact hrest s' hagrees

/-- The answers of `r` from `t` on for `n` ticks, and then those of `r'` from `x` on. -/
def glue (r : Sysroot) (t n : ℕ) (r' : Sysroot) (x : ℕ) : Sysroot :=
  r.answering (fun i => if i < n then r.reply (t+i) else r'.reply (x+(i-n)))
    fun i => if i ≤ n then r.close (t+i) else r'.close (x+(i-n))

section Glue

variable (r : Sysroot) (t n : ℕ) (r' : Sysroot) (x k : ℕ)

lemma glue_reply : (glue r t n r' x).reply (n+k) = r'.reply (x+k) := by
  change (if n+k < n then _ else r'.reply (x+(n+k-n))) = _
  rw [if_neg (by omega),Nat.add_sub_cancel_left]

lemma glue_close (hk : 0 < k) : (glue r t n r' x).close (n+k) = r'.close (x+k) := by
  change (if n+k ≤ n then _ else r'.close (x+(n+k-n))) = _
  rw [if_neg (by omega),Nat.add_sub_cancel_left]

lemma glue_left : Agrees r t (glue r t n r' x) 0 n where
  reply k hk := by
    rw [Nat.zero_add]
    exact if_pos hk
  close k _ hle := by
    rw [Nat.zero_add]
    exact if_pos hle

lemma glue_right : Agrees r' x (glue r t n r' x) n k :=
  ⟨fun i _ => glue_reply r t n r' x i,fun i hi _ => glue_close r t n r' x i hi⟩

lemma glue_right_back : Agrees (glue r t n r' x) n r' x k :=
  ⟨fun i _ => (glue_reply r t n r' x i).symm,fun i hi _ => (glue_close r t n r' x i hi).symm⟩

end Glue

/-- Includes that are possible one by one are possible one inside the other. -/
lemma exists_nested (h : TransGen root.Includes c d) :
    ∃ reply close s s', TransGen (Nested (root.answering reply close)) (c,s) (d,s') := by
  induction h with
  | single hone =>
    obtain ⟨reply,close,s,s',hone⟩ := hone
    exact ⟨reply,close,s,s',.single hone⟩
  | tail _ hone ih =>
    obtain ⟨reply,close,s,s₁,hfirst⟩ := ih
    obtain ⟨reply',close',x,x₁,hlast⟩ := hone
    obtain ⟨n,-,hn⟩ := nested_clock hfirst
    let r := root.answering reply close
    let r' := root.answering reply' close'
    let both := glue r s.clock n r' x.clock
    obtain ⟨s₂,hs₂,hclock⟩ := nested_transfer hfirst hn both ⟨rfl,rfl,rfl⟩ ⟨s.buf,0⟩
      (glue_left r s.clock n r' x.clock)
    rw [Nat.zero_add] at hclock
    have hstep : TransGen (Nested r') (_,x) (_,x₁) := .single hlast
    obtain ⟨k,-,hk⟩ := nested_clock hstep
    have hagrees : Agrees r' x.clock both s₂.clock k := by
      rw [hclock]
      exact glue_right r s.clock n r' x.clock k
    obtain ⟨s₃,hs₃,-⟩ := nested_transfer hstep hk both ⟨rfl,rfl,rfl⟩ s₂ hagrees
    exact ⟨both.reply,both.close,⟨s.buf,0⟩,s₃,hs₂.trans hs₃⟩

lemma nested_returns {n : ℕ} {x : Except Errno Unit × Cache}
    (h : TransGen (Nested root) (c,s) (d,s')) (hx : readOpened root n c s = some x) :
    ∃ m < n, ∃ y, readOpened root m d s' = some y := by
  have hpair : ∀ z, TransGen (Nested root) (c,s) z → ∃ m < n, ∃ y, readOpened root m z.1 z.2 =
      some y := by
    intro z hz
    induction hz with
    | single hone => exact Enters.returns hone hx
    | tail _ hone ih =>
      obtain ⟨m,hm,y,hy⟩ := ih
      obtain ⟨k,hk,z,hz⟩ := Enters.returns hone hy
      exact ⟨k,hk.trans hm,z,hz⟩
  exact hpair (d,s') h

/-- Whatever the answers, a file is read to its end or to an error. -/
def Terminates (root : Sysroot) (c : Text) : Prop :=
  ∀ reply close s, Returns (root.answering reply close) c ⟨.new,0⟩ s

lemma Terminates.of_includes (h : Terminates root c) (hd : TransGen root.Includes c d) :
    Terminates root d := by
  intro reply' close' x
  obtain ⟨reply,close,s,s₁,hnested⟩ := exists_nested hd
  obtain ⟨n,-,hn⟩ := nested_clock hnested
  let r := root.answering reply close
  let r' := root.answering reply' close'
  let both := glue r s.clock n r' x.clock
  obtain ⟨s₂,hs₂,hclock⟩ := nested_transfer hnested hn both ⟨rfl,rfl,rfl⟩ ⟨s.buf,0⟩
    (glue_left r s.clock n r' x.clock)
  rw [Nat.zero_add] at hclock
  obtain ⟨fuel,y,hy⟩ := h both.reply both.close ⟨s.buf,0⟩
  obtain ⟨m,-,⟨z,s₃⟩,hz⟩ := nested_returns hs₂ hy
  have hsame : SameFiles both r' := ⟨rfl,rfl,rfl⟩
  obtain ⟨k,-,hrest⟩ := readConfigFile_follows hsame (Nat.le_refl m) d ⟨.new,0⟩ s₂ z s₃ hz
  have hagrees : Agrees both s₂.clock r' x.clock k := by
    rw [hclock]
    exact glue_right_back r s.clock n r' x.clock k
  obtain ⟨s₄,hs₄,-⟩ := hrest x hagrees
  exact ⟨m,_,hs₄⟩

/-- The answers of `r` from `t` on for `n` ticks, over and over. -/
def repeated (r : Sysroot) (t n : ℕ) : Sysroot :=
  r.answering (fun i => r.reply (t+i % n)) fun i => r.close (t+((i-1) % n+1))

lemma repeated_agrees (r : Sysroot) (t n m : ℕ) : Agrees r t (repeated r t n) (m*n) n where
  reply k hk := by
    change r.reply (t+(m*n+k) % n) = _
    rw [Nat.mul_comm,Nat.mul_add_mod,Nat.mod_eq_of_lt hk]
  close k hk hle := by
    change r.close (t+((m*n+k-1) % n+1)) = _
    rw [Nat.add_sub_assoc hk,Nat.mul_comm,Nat.mul_add_mod,Nat.mod_eq_of_lt (by omega),
      Nat.sub_add_cancel hk]

/-- A file that can come to be read for itself does so again and again. -/
lemma Terminates.not_includes (h : Terminates root d) : ¬ TransGen root.Includes d d := by
  intro hcycle
  obtain ⟨reply,close,s,s₁,hnested⟩ := exists_nested hcycle
  obtain ⟨n,-,hn⟩ := nested_clock hnested
  let r := root.answering reply close
  let again := repeated r s.clock n
  have hnever : ∀ fuel m (x : Cache) y, x.clock = m*n → readOpened again fuel d x = some y →
      False := by
    intro fuel
    induction fuel using Nat.strong_induction_on with
    | _ fuel ih =>
      intro m x y hx hy
      have hagrees : Agrees r s.clock again x.clock n := by
        rw [hx]
        exact repeated_agrees r s.clock n m
      obtain ⟨x₁,hx₁,hclock⟩ := nested_transfer hnested hn again ⟨rfl,rfl,rfl⟩ x hagrees
      obtain ⟨k,hk,z,hz⟩ := nested_returns hx₁ hy
      exact ih k hk (m+1) x₁ z (by rw [hclock,hx,Nat.succ_mul]) hz
  obtain ⟨fuel,y,hy⟩ := h again.reply again.close ⟨s.buf,0⟩
  exact hnever fuel 0 ⟨s.buf,0⟩ y (Nat.zero_mul n).symm hy

/-- In a finite file system, a file is read to an end, whatever the answers, exactly if no file that
it leads to can come to include itself. -/
theorem terminates_iff_acyclic (root : Sysroot) (hfin : root.contents.Finite) (c : Text) :
    Terminates root c ↔
      ∀ d, ReflTransGen root.Includes c d → ¬ TransGen root.Includes d d := by
  constructor
  · intro h d hd
    rcases reflTransGen_iff_eq_or_transGen.mp hd with rfl | hd
    · exact h.not_includes
    · exact (h.of_includes hd).not_includes
  · intro hacyclic
    have hreached : {d | TransGen root.Includes c d} ⊆ root.contents := by
      intro d hd
      obtain ⟨e,-,reply,close,s,s',hone⟩ := TransGen.tail'_iff.mp hd
      have hmem : d ∈ (root.answering reply close).contents := Enters.mem_contents hone
      exact hmem
    refine WinterLily.Transition.acyclic_induction (hfin.subset hreached) hacyclic ?_
    intro d _ hnext reply close s
    exact returns_of_entered (valid_new d 0) fun e s' hent =>
      hnext e ⟨reply,close,s,s',hent⟩ reply close s'

lemma sampleRoot_finite : sampleRoot.contents.Finite := by
  refine Set.Finite.subset (Set.toFinite {terminated newline outerLines,
    terminated newline innerLines}) ?_
  rintro c (⟨path,hopen⟩ | ⟨dir,name,hopen⟩)
  · simp only [sampleRoot] at hopen
    split_ifs at hopen
    · cases hopen
      exact .inl rfl
    · cases hopen
      exact .inr rfl
  · cases hopen

theorem terminates_iff_acyclic_sample :
    sampleRoot.contents.Finite ∧ (Terminates sampleRoot (terminated newline outerLines) ↔
      ∀ d, ReflTransGen sampleRoot.Includes (terminated newline outerLines) d →
        ¬ TransGen sampleRoot.Includes d d) :=
  ⟨sampleRoot_finite,terminates_iff_acyclic sampleRoot sampleRoot_finite _⟩

/-- The line `include /c`. -/
def selfLine : Text := includeWord++[0x2F,0x63]

/-- A file system with one file, `/c`, which consists of that line. -/
def selfRoot : Sysroot where
  openRdonly path := if path = [0x2F,0x63] then .ok (selfLine++[newline]) else .error 2
  listing _ := .error 2
  openAt _ _ := .error 2
  reply _ := .count 128
  close _ := none

lemma selfRoot_nested (s : Cache) :
    Nested selfRoot (selfLine++[newline],s) (selfLine++[newline],⟨s.buf,s.clock+1⟩) := by
  have hread : ∃ u, readLineStatic selfRoot (selfLine++[newline]) 256 1 s.clock [] ⟨.new,0⟩ =
      some (.ok (some selfLine),u,s.clock+1) := ⟨_,rfl⟩
  obtain ⟨u,hread⟩ := hread
  have htargets : lineTargets selfRoot selfLine = []++.ok (selfLine++[newline])::[] := rfl
  exact .line hread htargets rfl

lemma selfRoot_stuck (fuel : ℕ) (s : Cache) :
    readOpened selfRoot fuel (selfLine++[newline]) s = none := by
  induction fuel using Nat.strong_induction_on generalizing s with
  | _ fuel ih =>
    cases hrun : readOpened selfRoot fuel (selfLine++[newline]) s with
    | none => rfl
    | some x =>
      obtain ⟨m,hm,y,hy⟩ := nested_returns (.single (selfRoot_nested s)) hrun
      rw [ih m hm] at hy
      cases hy

/-- It is read for itself without end. -/
theorem self_include_never_returns :
    ¬ Returns selfRoot (selfLine++[newline]) ⟨.new,0⟩ ⟨[],0⟩ := by
  rintro ⟨fuel,x,hx⟩
  rw [← readOpened,selfRoot_stuck] at hx
  cases hx

end Cycles

end WinterLily.SearchList
