import WinterLily.Loader.Image

/-! Which protections `map_phdrs` asks for. Each header's own are kept apart; a page that two
segments share gets those of both. -/
namespace WinterLily.Loader
open WinterLily.Task

/-- Between the two states only requests for protections in `P` were made. -/
def Requests (P : Prot → Prop) (s t : Proc) : Prop :=
  t.prot0 = s.prot0 ∧ ∃ new, t.log = s.log++new ∧ ∀ r ∈ new, P r.prot

section Within

variable {P : Prot → Prop}

instance : Std.Refl (Requests P) where
  refl _ := ⟨rfl,[],by simp,by simp⟩

instance : IsTrans Proc (Requests P) where
  trans := by
    rintro s t u ⟨h₁,new₁,hl₁,hn₁⟩ ⟨h₂,new₂,hl₂,hn₂⟩
    refine ⟨h₂.trans h₁,new₁++new₂,by rw [hl₂,hl₁,List.append_assoc],?_⟩
    intro r hr
    rcases List.mem_append.mp hr with hr | hr
    · exact hn₁ r hr
    · exact hn₂ r hr

lemma requests_of_log {s t : Proc} (h₀ : t.prot0 = s.prot0) (hl : t.log = s.log) :
    Requests P s t := ⟨h₀,[],by simp [hl],by simp⟩

variable (k : Kernel) (f : File)

lemma issue_requests (call : Syscall) (addr len : Usize) {prot : Prot} (h : P prot) (e : Error) :
    Within (Requests P) (issue k call addr len prot e) := by
  intro p
  have hc : Requests P p { p with
      calls := p.calls+1, log := p.log++[⟨call,addr,len,prot,k.ok p.calls⟩] } :=
    ⟨rfl,_,rfl,by simpa using h⟩
  unfold issue
  dsimp only
  split_ifs <;> exact hc

lemma mprotect_requests (addr len : Usize) {prot : Prot} (h : P prot) :
    Within (Requests P) (mprotect k addr len prot) :=
  issue_requests k .mprotect addr len h .loadError

lemma mmapFile_requests (addr len : Usize) {prot : Prot} (h : P prot) (offset : Usize) :
    Within (Requests P) (mmapFile k f addr len prot offset) :=
  within_bind (issue_requests k .mmap addr len h .loadError) fun _ _ => requests_of_log rfl rfl

lemma writeBytes_requests (addr n : Usize) : Within (Requests P) (writeBytes addr n) := by
  intro p
  unfold writeBytes
  split_ifs <;> exact requests_of_log rfl rfl

lemma readLoop_log (addr : Usize) (len : ℕ) (p : Proc) :
    (readLoop k f addr len p).2.prot0 = p.prot0 ∧ (readLoop k f addr len p).2.log = p.log := by
  induction len using Nat.strong_induction_on generalizing addr p with
  | _ len ih =>
    rw [readLoop]
    dsimp only
    split_ifs with hlen hok hnum
    · exact ⟨rfl,rfl⟩
    · exact ⟨rfl,rfl⟩
    · exact ih _ (by omega) _ _
    · exact ⟨rfl,rfl⟩

lemma readOffset_requests (off addr : Usize) (len : ℕ) :
    Within (Requests P) (readOffset k f off addr len) := by
  refine within_bind (fun p => ?_) fun _ p => ?_
  · unfold lseek
    split_ifs <;> exact requests_of_log rfl rfl
  · obtain ⟨h₀,hl⟩ := readLoop_log k f addr len p
    exact requests_of_log h₀ hl

lemma sharePage_requests (hrw : P (Prot.read ||| Prot.write)) (last : Last) (ph : Phdr)
    {perms : Prot} (c : Cursor) (h : P (perms ||| last.perms)) :
    Within (Requests P) (sharePage k f last ph perms c) :=
  within_bind (mprotect_requests k _ _ hrw) fun _ =>
    within_bind (readOffset_requests k f _ _ _) fun _ =>
      within_bind (mprotect_requests k _ _ h) fun _ => within_pure _

lemma mapFile_requests (hrw : P (Prot.read ||| Prot.write)) (ph : Phdr) {perms : Prot} (c : Cursor)
    (h : P perms) : Within (Requests P) (mapFile k f ph perms c) := by
  unfold mapFile
  split_ifs
  · exact within_stop _
  · exact within_bind (mmapFile_requests k f _ _ hrw _) fun _ =>
      within_bind (writeBytes_requests _ _) fun _ =>
        within_bind (writeBytes_requests _ _) fun _ =>
          within_bind (mprotect_requests k _ _ h) fun _ => within_pure _

lemma otherPages_requests (hrw : P (Prot.read ||| Prot.write)) (last : Last) {ph : Phdr} (c : Cursor)
    (h : P (permsOf ph.pFlags)) : Within (Requests P) (otherPages k f last ph c) := by
  unfold otherPages
  split_ifs
  · exact mapFile_requests k f hrw ph c h
  · exact within_pure _

/-- What one header asks for: `R|W` while it is being filled, its own protections, and on a shared
page those of both segments. -/
lemma mapPhdr_requests (hrw : P (Prot.read ||| Prot.write)) (base : Usize) (last : Last) (ph : Phdr)
    (h : P (permsOf ph.pFlags)) (hs : shares base last ph → P (permsOf ph.pFlags ||| last.perms)) :
    Within (Requests P) (mapPhdr k f base last ph) := by
  refine within_bind ?_ fun c => otherPages_requests k f hrw last c h
  unfold firstPage
  dsimp only
  split_ifs with hc
  · exact sharePage_requests k f hrw last ph _ (hs hc)
  · exact within_pure _

end Within

lemma permsOf_isWX (pFlags : BitVec 32) : (permsOf pFlags).isWX = false := by
  unfold permsOf
  split_ifs <;> decide

/-- The header does not combine the right to write with the right to execute on a shared page. -/
def Unmixed (base : Usize) (last : Last) (ph : Phdr) : Prop :=
  shares base last ph → (permsOf ph.pFlags ||| last.perms).isWX = false

section Loop

variable (k : Kernel) (f : File)

/-- Every header reached in the run of the loop is unmixed. -/
def NoMix (base : Usize) : Last → List Phdr → Proc → Prop
  | _,[],_ => True
  | last,ph::phs,p => Unmixed base last ph ∧
      ∀ last' p', mapPhdr k f base last ph p = (.ok last',p') → NoMix base last' phs p'

lemma mapLoop_unmixed (base : Usize) {last : Last} {phs : List Phdr} {p : Proc}
    (h : NoMix k f base last phs p) :
    Requests (fun prot => prot.isWX = false) p (mapLoop k f base last phs p).2 := by
  induction phs generalizing last p with
  | nil => exact Std.Refl.refl p
  | cons ph phs ih =>
    have hc := mapPhdr_requests (P := fun prot => prot.isWX = false) k f (by decide) base
      last ph (permsOf_isWX _) h.1 p
    unfold mapLoop
    rcases he : mapPhdr k f base last ph p with ⟨e | last',p'⟩
    · rw [bind_stop he]
      rwa [he] at hc
    · rw [bind_ok he]
      rw [he] at hc
      exact IsTrans.trans _ _ _ hc (ih (h.2 last' p' he))

/-- The log only grows. -/
lemma mapLoop_grows (base : Usize) (last : Last) (phs : List Phdr) :
    Within (Requests fun _ => True) (mapLoop k f base last phs) := by
  induction phs generalizing last with
  | nil => exact within_pure _
  | cons ph phs ih =>
    exact within_bind (mapPhdr_requests k f trivial base last ph trivial fun _ => trivial) ih

end Loop

/-- No request that the call makes asks for both rights, and no page has both after any number of
them. -/
def Separate (k : Kernel) (f : File) (base : Usize) (phs : List Phdr) (p : Proc) : Prop :=
  ∃ new, (mapPhdrs k f phs base p).2.log = p.log++new ∧ (∀ r ∈ new, r.prot.isWX = false) ∧
    ∀ n x, (replay p.prot (new.take n) x).isWX = false

lemma replay_isWX {q : Usize → Prot} {log : List Request} (h₀ : ∀ x, (q x).isWX = false)
    (h : ∀ r ∈ log, r.prot.isWX = false) (x : Usize) : (replay q log x).isWX = false := by
  induction log generalizing q with
  | nil => exact h₀ x
  | cons r log ih =>
    refine ih (q := r.apply q) (fun y => ?_) fun r' hr' => h r' (by simp [hr'])
    unfold Request.apply
    split_ifs
    · exact h r (by simp)
    · exact h₀ y

lemma mapPhdrs_state (k : Kernel) (f : File) (base : Usize) (phs : List Phdr) (p : Proc) :
    (mapPhdrs k f phs base p).2 = (mapLoop k f base ⟨0#64,0#32⟩ phs p).2 := by
  unfold mapPhdrs
  rcases he : mapLoop k f base ⟨0#64,0#32⟩ phs p with ⟨e | u,p'⟩
  · rw [bind_stop he]
  · rw [bind_ok he]
    rfl

theorem separate_of_noMix {k : Kernel} {f : File} {base : Usize} {phs : List Phdr} {p : Proc}
    (h₀ : ∀ x, (p.prot x).isWX = false) (h : NoMix k f base ⟨0#64,0#32⟩ phs p) :
    Separate k f base phs p := by
  obtain ⟨-,new,hl,hn⟩ := mapLoop_unmixed k f base h
  refine ⟨new,by rw [mapPhdrs_state,hl],hn,fun n x => ?_⟩
  exact replay_isWX h₀ (fun r hr => hn r (List.mem_of_mem_take hr)) x

/-- A file longer than any offset. -/
def File.endless : File := ⟨2^66,fun _ => 0#8⟩

/-- The two processes have the same protections for the same reasons. -/
def SameLog (s t : Proc) : Prop := s.prot0 = t.prot0 ∧ s.log = t.log

section Follows

variable (k : Kernel) (f : File)

lemma issue_follows (call : Syscall) (addr len : Usize) (prot : Prot) (e : Error) :
    Follows SameLog (issue k call addr len prot e) (issue .willing call addr len prot e) := by
  rintro s t ⟨h₀,hl⟩ a s' hs
  unfold issue at hs ⊢
  dsimp only at hs ⊢
  split_ifs at hs with hok
  · cases hs
    exact ⟨_,rfl,h₀,by simp [hl,hok,Kernel.willing]⟩
  · cases hs

lemma writeBytes_follows (addr n : Usize) :
    Follows SameLog (writeBytes addr n) (writeBytes addr n) := by
  rintro s t ⟨h₀,hl⟩ a s' hs
  have hprot : s.prot = t.prot := by rw [Proc.prot,Proc.prot,h₀,hl]
  unfold writeBytes at hs ⊢
  rw [← hprot]
  split_ifs at hs with hw
  · cases hs
    rw [if_pos hw]
    exact ⟨_,rfl,h₀,hl⟩
  · cases hs

lemma readOffset_follows (off addr : Usize) {len : ℕ} (h : len ≤ 2^64) :
    Follows SameLog (readOffset k f off addr len) (readOffset .willing .endless off addr len) := by
  rintro s t ⟨h₀,hl⟩ a s' hs
  obtain ⟨u,s₁,hseek,hloop⟩ := of_bind_ok hs
  have hs₁ : s₁.prot0 = s.prot0 ∧ s₁.log = s.log := by
    unfold lseek at hseek
    split_ifs at hseek <;> cases hseek
    exact ⟨rfl,rfl⟩
  obtain ⟨hs₀,hsl⟩ := readLoop_log k f addr len s₁
  rw [hloop] at hs₀ hsl
  have hoff := off.isLt
  obtain ⟨t',ht',ht₀,htl,-⟩ := readOffset_ok (k := .willing) (fun _ => rfl) .endless off
    addr t h (by change off.toNat+len ≤ 2^66; omega)
  exact ⟨t',ht',by rw [hs₀,hs₁.1,h₀,ht₀],by rw [hsl,hs₁.2,hl,htl]⟩

lemma sharePage_follows (last : Last) (ph : Phdr) (perms : Prot) (c : Cursor) :
    Follows SameLog (sharePage k f last ph perms c)
      (sharePage .willing .endless last ph perms c) := by
  have hsize : min (pageUp c.addr-c.addr).toNat c.fileLen.toNat ≤ 2^64 := by
    have := c.fileLen.isLt
    omega
  exact follows_bind (issue_follows k _ _ _ _ _) fun _ =>
    follows_bind (readOffset_follows k f _ _ hsize) fun _ =>
      follows_bind (issue_follows k _ _ _ _ _) fun _ => follows_pure _

lemma mapFile_follows (ph : Phdr) (perms : Prot) (c : Cursor) :
    Follows SameLog (mapFile k f ph perms c) (mapFile .willing .endless ph perms c) := by
  have hmod : ∀ g g' : Memory.Mem 64 → Memory.Mem 64,
      Follows SameLog (modifyMem g) (modifyMem g') := by
    rintro g g' s t ⟨h₀,hl⟩ a s' hs
    cases hs
    exact ⟨_,rfl,h₀,hl⟩
  unfold mapFile
  split_ifs
  · exact follows_stop _ _
  · exact follows_bind (follows_bind (issue_follows k _ _ _ _ _) fun _ => hmod _ _) fun _ =>
      follows_bind (writeBytes_follows _ _) fun _ =>
        follows_bind (writeBytes_follows _ _) fun _ =>
          follows_bind (issue_follows k _ _ _ _ _) fun _ => follows_pure _

/-- A header that goes through with any kernel goes through with a willing one. -/
lemma mapPhdr_follows (base : Usize) (last : Last) (ph : Phdr) :
    Follows SameLog (mapPhdr k f base last ph) (mapPhdr .willing .endless base last ph) := by
  refine follows_bind ?_ fun c => ?_
  · unfold firstPage
    dsimp only
    split_ifs
    · exact sharePage_follows k f last ph _ _
    · exact follows_pure _
  · unfold otherPages
    split_ifs
    · exact mapFile_follows k f ph _ c
    · exact follows_pure _

lemma noMix_of_willing (base : Usize) {last : Last} {phs : List Phdr} {p q : Proc}
    (hpq : SameLog p q) (h : NoMix .willing .endless base last phs q) :
    NoMix k f base last phs p := by
  induction phs generalizing last p q with
  | nil => trivial
  | cons ph phs ih =>
    refine ⟨h.1,fun last' p' hp' => ?_⟩
    obtain ⟨q',hq',hpq'⟩ := mapPhdr_follows k f base last ph p q hpq last' p' hp'
    exact ih hpq' (h.2 last' q' hq')

end Follows

/-- Between the two states both rights were asked for at once. -/
def Mixes (s t : Proc) : Prop := ∃ new, t.log = s.log++new ∧ ∃ r ∈ new, r.prot.isWX = true

lemma Mixes.grow {s t u : Proc} (h : Mixes s t) (htu : Requests (fun _ => True) t u) :
    Mixes s u := by
  obtain ⟨new,hl,r,hr,hwx⟩ := h
  obtain ⟨-,new',hl',-⟩ := htu
  exact ⟨new++new',by rw [hl',hl,List.append_assoc],r,List.mem_append_left _ hr,hwx⟩

lemma Mixes.after {s t u : Proc} (hst : Requests (fun _ => True) s t) (h : Mixes t u) :
    Mixes s u := by
  obtain ⟨-,new,hl,-⟩ := hst
  obtain ⟨new',hl',r,hr,hwx⟩ := h
  exact ⟨new++new',by rw [hl',hl,List.append_assoc],r,List.mem_append_right _ hr,hwx⟩

/-- The file has the bytes of every header. -/
def HasBytes (f : File) (phs : List Phdr) : Prop :=
  ∀ ph ∈ phs, ph.pOffset.toNat+ph.pFilesz.toNat ≤ f.size

lemma hasBytes_endless (phs : List Phdr) : HasBytes .endless phs := by
  intro ph _
  have hlen := ph.pFilesz.isLt
  have hoff := ph.pOffset.isLt
  change _ ≤ 2^66
  omega

section Willing

variable {k : Kernel} (hk : k.Willing) {f : File}
include hk

/-- Nothing keeps a willing kernel from being asked for the rights of both segments. -/
lemma sharePage_mixes {last : Last} {ph : Phdr} {perms : Prot} {c : Cursor}
    (hf : ph.pOffset.toNat+c.fileLen.toNat ≤ f.size) (h : (perms ||| last.perms).isWX = true)
    (p : Proc) : Mixes p (sharePage k f last ph perms c p).2 := by
  obtain ⟨p',hp',-,hlog,-⟩ := sharePage_ok hk last ph perms c p (f := f) (by omega)
  rw [hp']
  exact ⟨_,hlog,⟨.mprotect,pageDown last.addr,4096#64,perms ||| last.perms,true⟩,by simp,h⟩

end Willing

lemma mixes_bind {α β : Type} {x : Loading α} {f : α → Loading β} {p : Proc} (h : Mixes p (x p).2)
    (hf : ∀ a, Within (Requests fun _ => True) (f a)) : Mixes p ((x >>= f) p).2 := by
  rcases he : x p with ⟨e | a,p'⟩
  · rw [bind_stop he]
    rwa [he] at h
  · rw [bind_ok he]
    rw [he] at h
    exact h.grow (hf a p')

lemma mapLoop_mixes {k : Kernel} (hk : k.Willing) {f : File} {base : Usize} {last : Last}
    {phs : List Phdr} (hf : HasBytes f phs) {p : Proc} (h : ¬ NoMix k f base last phs p) :
    Mixes p (mapLoop k f base last phs p).2 := by
  induction phs generalizing last p with
  | nil => exact absurd trivial h
  | cons ph phs ih =>
    have hone := mapPhdr_requests (P := fun _ => True) k f trivial base last ph trivial
      (fun _ => trivial) p
    by_cases hm : Unmixed base last ph
    · have hrest : ∃ last' p', mapPhdr k f base last ph p = (.ok last',p') ∧
          ¬ NoMix k f base last' phs p' := by
        by_contra hc
        exact h ⟨hm,fun last' p' he => by_contra fun hn => hc ⟨last',p',he,hn⟩⟩
      obtain ⟨last',p',he,hn⟩ := hrest
      unfold mapLoop
      rw [bind_ok he]
      rw [he] at hone
      exact Mixes.after hone (ih (fun a ha => hf a (List.mem_cons_of_mem _ ha)) hn)
    · -- the page is shared: the request is made before anything else of this header can fail
      obtain ⟨hs,hwx⟩ := Classical.not_imp.mp hm
      have hmix := sharePage_mixes hk (c := ⟨base+ph.pPaddr,ph.pMemsz,ph.pFilesz,ph.pOffset⟩)
        (hf ph (List.mem_cons_self ..)) (Bool.eq_true_of_not_eq_false hwx) p
      have hfirst : firstPage k f base last ph = sharePage k f last ph (permsOf ph.pFlags)
          ⟨base+ph.pPaddr,ph.pMemsz,ph.pFilesz,ph.pOffset⟩ := if_pos hs
      rw [← hfirst] at hmix
      have hloop := mixes_bind (f := fun c => otherPages k f last ph c) hmix fun c =>
        otherPages_requests k f trivial last c trivial
      exact mixes_bind hloop fun last' => mapLoop_grows k f base last' phs

theorem noMix_of_separate {k : Kernel} (hk : k.Willing) {f : File} {base : Usize}
    {phs : List Phdr} (hf : HasBytes f phs) {p : Proc} (h : Separate k f base phs p) :
    NoMix k f base ⟨0#64,0#32⟩ phs p := by
  by_contra hn
  obtain ⟨new,hl,hsep,-⟩ := h
  obtain ⟨new',hl',r,hr,hwx⟩ := mapLoop_mixes hk hf hn
  rw [mapPhdrs_state,hl'] at hl
  rw [List.append_cancel_left hl] at hr
  rw [hsep r hr] at hwx
  cases hwx

/-- The headers alone: one that begins on the last page mapped before it does not bring one of the two
rights there beside the other. A header with more than a page of file that begins there panics, so
nothing is asked of those after it. -/
def Apart (base : Usize) : Option Phdr → List Phdr → Prop
  | _,[] => True
  | prev,ph::phs =>
    (ph.start base < pageEnd base prev →
      ∀ q, prev = some q → (permsOf ph.pFlags ||| permsOf q.pFlags).isWX = false) ∧
    (ph.start base < pageEnd base prev ∧ 4096 < ph.pFilesz.toNat ∨
      Apart base (nextMapped base prev ph) phs)

section Fresh

variable {k : Kernel} {f : File} {base : Usize} {limit lo : ℕ} {prev : Option Phdr} {last : Last}
  {p : Proc}

lemma unmixed_iff (hr : Region base limit) {ph : Phdr} (hph : Loadable f base limit ph)
    (hm : Mapped f base limit prev lo last p) :
    Unmixed base last ph ↔ (ph.start base < pageEnd base prev →
      ∀ q, prev = some q → (permsOf ph.pFlags ||| permsOf q.pFlags).isWX = false) := by
  unfold Unmixed
  rw [shares_iff hr hph hm]
  refine forall_congr' fun hs => ?_
  cases prev with
  | none => exact absurd hs (Nat.not_lt_zero _)
  | some q =>
    rw [hm.last_perms q rfl]
    simp

/-- Over a fresh region the headers tell which pages they share. -/
lemma noMix_iff_apart (hk : k.Willing) (hr : Region base limit) {phs : List Phdr}
    (hphs : Ahead f base limit lo phs) (hm : Mapped f base limit prev lo last p) :
    NoMix k f base last phs p ↔ Apart base prev phs := by
  induction phs generalizing prev lo last p with
  | nil => exact Iff.rfl
  | cons ph phs ih =>
    have hph := hphs.loadable ph (List.mem_cons_self ..)
    have hlo := hphs.above ph (List.mem_cons_self ..)
    unfold NoMix Apart
    rw [unmixed_iff hr hph hm]
    refine and_congr_right fun _ => ?_
    have hgoes : ∀ {last' p'}, mapPhdr k f base last ph p = (.ok last',p') →
        Placed f base limit prev ph p last' p' →
        ((∀ last' p', mapPhdr k f base last ph p = (.ok last',p') → NoMix k f base last' phs p') ↔
          Apart base (nextMapped base prev ph) phs) := by
      intro last' p' he hplaced
      rw [← ih hphs.tail hplaced.mapped,he]
      exact ⟨fun h => h _ _ rfl,fun h _ _ heq => by cases heq; exact h⟩
    by_cases hs : ph.start base < pageEnd base prev
    · by_cases hbig : 4096 < ph.pFilesz.toNat
      · obtain ⟨q,hq⟩ := mapPhdr_panics hk hr hph hm hlo hs hbig
        rw [hq]
        exact iff_of_true nofun (.inl ⟨hs,hbig⟩)
      · obtain ⟨last',p',he,hplaced⟩ := mapPhdr_shared hk hr hph hm hlo hs (not_lt.mp hbig)
        rw [hgoes he hplaced,or_iff_right fun h => hbig h.2]
    · obtain ⟨last',p',he,hplaced⟩ := mapPhdr_alone hk hr hph hm hlo hs
      rw [hgoes he hplaced,or_iff_right fun h => hs h.1]

end Fresh

/-- Along every run in which no header begins on the last page mapped with one of the two rights
where the page has the other, no page is ever writable and executable; and no other list of headers
is safe with every kernel and file. For well-formed headers over a fresh region, with every call
succeeding, the headers alone decide. -/
theorem separate_iff_noMix {base : Usize} {phs : List Phdr} {p : Proc}
    (h₀ : ∀ x, (p.prot x).isWX = false) :
    (∀ k f, NoMix k f base ⟨0#64,0#32⟩ phs p → Separate k f base phs p) ∧
      ((∀ k f, Separate k f base phs p) ↔ ∀ k f, NoMix k f base ⟨0#64,0#32⟩ phs p) ∧
      ∀ (k : Kernel) (f : File) (search : SearchType) (maxPma : Usize) (p₀ : Proc), k.Willing →
        allocBaseAddr k search maxPma p₀ = (.ok base,p) →
        Region base (base.toNat+Align.up maxPma.toNat 4096) →
        (∀ ph ∈ phs, Loadable f base (base.toNat+Align.up maxPma.toNat 4096) ph) →
        (phs.Pairwise fun a b => a.stop base ≤ b.start base) →
        (Separate k f base phs p ↔ Apart base none phs) := by
  have hmpr : ∀ k f, NoMix k f base ⟨0#64,0#32⟩ phs p → Separate k f base phs p :=
    fun k f => separate_of_noMix h₀
  refine ⟨hmpr,⟨fun h k f => ?_,fun h k f => hmpr k f (h k f)⟩,?_⟩
  · exact noMix_of_willing k f base ⟨rfl,rfl⟩
      (noMix_of_separate (fun _ => rfl) (hasBytes_endless phs) (h _ _))
  · intro k f search maxPma p₀ hk halloc hr hphs hsorted
    have hm := allocBaseAddr_mapped hk halloc hr f
    have hbytes : HasBytes f phs := fun ph hph => (hphs ph hph).covered
    rw [← noMix_iff_apart hk hr ⟨hphs,fun _ _ => Nat.le_add_right _ _,hsorted⟩ hm]
    exact ⟨noMix_of_separate hk hbytes,hmpr k f⟩

/-- Zeroed memory that may be read and written. -/
def Proc.zeroed : Proc := ⟨fun _ => 0#8,fun _ => Prot.read ||| Prot.write,[],0,0,fun _ => 0#64⟩

/-- A hundred bytes of code on the first page. -/
def codeSegment : Phdr := ⟨5#32,0#64,0#64,0#64,100#64,100#64⟩

/-- Eight bytes of data at `start`, in the file as in memory. -/
def dataSegment (start : Usize) : Phdr := ⟨6#32,start,start,start,8#64,8#64⟩

lemma codeSegment_last : ∃ p', mapPhdr .willing .endless 0x10000#64 ⟨0#64,0#32⟩ codeSegment
    .zeroed = (.ok ⟨0x10063#64,Prot.read ||| Prot.exec⟩,p') := ⟨_,rfl⟩

theorem separate_iff_noMix_twoPages :
    (∀ x, (Proc.zeroed.prot x).isWX = false) ∧
      ∀ k f, Separate k f 0x10000#64 [codeSegment,dataSegment 0x1000#64] .zeroed := by
  have h₀ : ∀ x, (Proc.zeroed.prot x).isWX = false := by
    intro x
    change (Prot.read ||| Prot.write).isWX = false
    decide
  refine ⟨h₀,(separate_iff_noMix h₀).2.1.mpr fun k f => noMix_of_willing k f _ ⟨rfl,rfl⟩ ?_⟩
  refine ⟨by unfold Unmixed; decide,fun last' p' he => ?_⟩
  obtain ⟨q,hq⟩ := codeSegment_last
  rw [hq] at he
  cases he
  exact ⟨by unfold Unmixed; decide,fun _ _ _ => trivial⟩

/-- Data that begins on the last page of the code makes that page writable and executable. -/
theorem shared_page_mixes :
    ¬ Separate .willing .endless 0x10000#64 [codeSegment,dataSegment 0x800#64] .zeroed := by
  intro h
  obtain ⟨q,hq⟩ := codeSegment_last
  have hdata := ((noMix_of_separate (fun _ => rfl) (hasBytes_endless _) h).2 _ q hq).1
  revert hdata
  unfold Unmixed
  decide

end WinterLily.Loader
