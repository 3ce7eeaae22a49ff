import WinterLily.Loader.Mapping

/-! What `map_phdrs` leaves in memory. The bytes of a segment are right exactly when it does not
begin on the page where the segment mapped before it ended, or fits what that page shows. -/
namespace WinterLily.Loader
open WinterLily.Memory

section Headers

variable (f : File) (base : Usize)

def Phdr.start (ph : Phdr) : ℕ := base.toNat+ph.pPaddr.toNat

def Phdr.fileEnd (ph : Phdr) : ℕ := ph.start base+ph.pFilesz.toNat

def Phdr.stop (ph : Phdr) : ℕ := ph.start base+ph.pMemsz.toNat

/-- The memory of a segment is its part of the file followed by zeros. -/
def Loaded (ph : Phdr) (m : Mem 64) : Prop :=
  ∀ i, i < ph.pMemsz.toNat → m (base+ph.pPaddr+BitVec.ofNat 64 i) =
    if i < ph.pFilesz.toNat then f.byte (ph.pOffset.toNat+i) else 0#8

/-- A well-formed header of a file that has the bytes, inside the region that ends at `limit`. -/
structure Loadable (limit : ℕ) (ph : Phdr) : Prop where
  filesz_le : ph.pFilesz.toNat ≤ ph.pMemsz.toNat
  paddr_eq : ph.pPaddr = ph.pVaddr
  congruent : ph.pOffset.toNat%4096 = ph.start base%4096
  inside : ph.stop base ≤ limit
  covered : ph.pOffset.toNat+ph.pFilesz.toNat ≤ f.size

/-- The end of the last page that the file was mapped for, if any. -/
def pageEnd : Option Phdr → ℕ
  | none => 0
  | some prev => Align.up (prev.stop base) 4096

/-- What memory shows past the segments done so far: up to the end of its pages the mapping goes on
with the file. -/
def backing : Option Phdr → ℕ → Byte
  | none,_ => 0#8
  | some prev,x =>
    if x < Align.up (prev.fileEnd base) 4096 then f.at (prev.pOffset.toNat+(x-prev.start base))
    else 0#8

/-- A header that begins on the last page is right when nothing of it is left for the next pages
but zeros, and its own zeros on this page are there already. -/
structure FitsPage (prev : Option Phdr) (ph : Phdr) : Prop where
  small : ph.pFilesz.toNat ≤ 4096
  beyond : ∀ i < ph.pFilesz.toNat, pageEnd base prev ≤ ph.start base+i →
    f.byte (ph.pOffset.toNat+i) = 0#8
  zeros : ∀ i < ph.pMemsz.toNat, ph.pFilesz.toNat ≤ i → ph.start base+i < pageEnd base prev →
    backing f base prev (ph.start base+i) = 0#8

/-- The segment mapped last, once the header is done. -/
def nextMapped (prev : Option Phdr) (ph : Phdr) : Option Phdr :=
  if ph.start base < pageEnd base prev ∨ ph.pFilesz.toNat = 0 then prev else some ph

/-- Every header that begins on the last page mapped before it fits there. -/
def Fits : Option Phdr → List Phdr → Prop
  | _,[] => True
  | prev,ph::phs => (ph.start base < pageEnd base prev → FitsPage f base prev ph) ∧
      Fits (nextMapped base prev ph) phs

/-- The state of the loop: `prev` was mapped last and nothing lies at or after `lo`. -/
structure Mapped (limit : ℕ) (prev : Option Phdr) (lo : ℕ) (last : Last) (p : Proc) : Prop where
  last_page : Align.down last.addr.toNat 4096+4096 = max 4096 (pageEnd base prev)
  last_perms : ∀ ph, prev = some ph → last.perms = permsOf ph.pFlags
  page_lt : pageEnd base prev < lo+4096
  backed : ∀ x, pageEnd base prev ≤ x → backing f base prev x = 0#8
  writable : ∀ x : Usize, base.toNat ≤ x.toNat → pageEnd base prev ≤ x.toNat → x.toNat < limit →
    (p.prot x).has Prot.write = true
  shown : ∀ x : Usize, base.toNat ≤ x.toNat → x.toNat < limit →
    lo ≤ x.toNat ∨ pageEnd base prev ≤ x.toNat → p.mem x = backing f base prev x.toNat

/-- What one header does: the state of the loop goes on behind it, what was below it is kept, and it
is right itself unless it should have fitted the page of the one before. -/
structure Placed (limit : ℕ) (prev : Option Phdr) (ph : Phdr) (p : Proc) (last' : Last) (p' : Proc) :
    Prop where
  mapped : Mapped f base limit (nextMapped base prev ph) (ph.stop base) last' p'
  kept : ∀ x : Usize, base.toNat ≤ x.toNat → x.toNat < ph.start base → p'.mem x = p.mem x
  loaded : Loaded f base ph p'.mem ↔
    (ph.start base < pageEnd base prev → FitsPage f base prev ph)

/-- The region that `alloc_base_addr` hands out: whole pages, not the first one, nothing wraps. -/
structure Region (limit : ℕ) : Prop where
  aligned : base.toNat%4096 = 0
  low : 4096 ≤ base.toNat
  high : limit+4096 ≤ 2^64

end Headers

section Step

variable {f : File} {base : Usize} {limit lo : ℕ} {prev : Option Phdr} {last : Last} {ph : Phdr}
  {p : Proc}

lemma start_toNat (hr : Region base limit) (hph : Loadable f base limit ph) :
    (base+ph.pPaddr).toNat = ph.start base := by
  have hhigh := hr.high
  have hin := hph.inside
  unfold Phdr.stop Phdr.start at hin
  exact BitVec.toNat_add_of_lt (by omega)

lemma loaded_iff (hr : Region base limit) (hph : Loadable f base limit ph) (m : Mem 64) :
    Loaded f base ph m ↔ ∀ x : Usize, ph.start base ≤ x.toNat → x.toNat < ph.stop base →
      m x = if x.toNat < ph.fileEnd base then f.byte (ph.pOffset.toNat+(x.toNat-ph.start base))
        else 0#8 := by
  have hhigh := hr.high
  have hin := hph.inside
  have hstart := start_toNat hr hph
  unfold Phdr.fileEnd Phdr.stop at *
  constructor
  · intro h x hlo hhi
    have hx : base+ph.pPaddr+BitVec.ofNat 64 (x.toNat-ph.start base) = x := by
      apply BitVec.eq_of_toNat_eq
      rw [add_ofNat_toNat (by omega),hstart]
      omega
    have hi := h (x.toNat-ph.start base) (by omega)
    rw [hx] at hi
    rw [hi]
    by_cases hf : x.toNat < ph.start base+ph.pFilesz.toNat
    · rw [if_pos hf,if_pos (by omega)]
    · rw [if_neg hf,if_neg (by omega)]
  · intro h i hi
    have hx : (base+ph.pPaddr+BitVec.ofNat 64 i).toNat = ph.start base+i := by
      rw [add_ofNat_toNat (by omega),hstart]
    rw [h _ (by omega) (by omega),hx,Nat.add_sub_cancel_left]
    by_cases hf : i < ph.pFilesz.toNat
    · rw [if_pos hf,if_pos (by omega)]
    · rw [if_neg hf,if_neg (by omega)]

lemma shares_iff (hr : Region base limit) (hph : Loadable f base limit ph)
    (hm : Mapped f base limit prev lo last p) :
    shares base last ph ↔ ph.start base < pageEnd base prev := by
  have hlast := hm.last_page
  have hlow := hr.low
  have hbase : base.toNat ≤ ph.start base := Nat.le_add_right _ _
  unfold shares
  rw [BitVec.le_def,pageDown_toNat,pageDown_toNat,start_toNat hr hph]
  unfold Align.down at *
  omega

lemma pageEnd_mod (base : Usize) (prev : Option Phdr) : pageEnd base prev%4096 = 0 := by
  cases prev with
  | none => rfl
  | some prev => exact Nat.mod_eq_zero_of_dvd (Align.dvd_up _ _)

/-- A segment without a file part on pages of its own: nothing is done. -/
lemma placed_skip (hr : Region base limit) (hph : Loadable f base limit ph)
    (hm : Mapped f base limit prev lo last p) (hlo : lo ≤ ph.start base)
    (hs : ¬ ph.start base < pageEnd base prev) (hz : ph.pFilesz.toNat = 0) :
    Placed f base limit prev ph p last p := by
  have hstop : ph.start base ≤ ph.stop base := Nat.le_add_right _ _
  have hbase : base.toNat ≤ ph.start base := Nat.le_add_right _ _
  have hin := hph.inside
  have hnext : nextMapped base prev ph = prev := if_pos (Or.inr hz)
  have hlt := hm.page_lt
  refine ⟨?_,fun _ _ _ => rfl,?_⟩
  · rw [hnext]
    refine ⟨hm.last_page,hm.last_perms,by omega,hm.backed,hm.writable,fun x hx hxl hc => ?_⟩
    exact hm.shown x hx hxl (by omega)
  · refine ⟨fun _ hc => absurd hc hs,fun _ => (loaded_iff hr hph p.mem).mpr fun x hlo' hhi => ?_⟩
    rw [if_neg (by unfold Phdr.fileEnd; omega),hm.shown x (by omega) (by omega) (by omega)]
    exact hm.backed _ (by omega)

/-- A segment on pages of its own. -/
lemma placed_segment (hr : Region base limit) (hph : Loadable f base limit ph)
    (hm : Mapped f base limit prev lo last p) (hs : ¬ ph.start base < pageEnd base prev)
    (hpos : 0 < ph.pFilesz.toNat) {last' : Last} {p' : Proc}
    (hlast : last'.addr.toNat = ph.stop base-1) (hperms : last'.perms = permsOf ph.pFlags)
    (hmem : p'.mem = segmentMem f (ph.start base) ph.pFilesz.toNat ph.pMemsz.toNat
      ph.pOffset.toNat p.mem)
    (hprot : ∀ x : Usize, Align.up (ph.stop base) 4096 ≤ x.toNat → p'.prot x = p.prot x) :
    Placed f base limit prev ph p last' p' := by
  have hbase : base.toNat ≤ ph.start base := Nat.le_add_right _ _
  have hin := hph.inside
  have hfs := hph.filesz_le
  have hlow := hr.low
  have hnext : nextMapped base prev ph = some ph := if_neg (by omega)
  have hpage : pageEnd base prev ≤ Align.down (ph.start base) 4096 := by
    have := pageEnd_mod base prev
    unfold Align.down
    omega
  have hfresh : ∀ x : Usize, base.toNat ≤ x.toNat → x.toNat < limit →
      Align.down (ph.start base) 4096 ≤ x.toNat → p.mem x = 0#8 := by
    intro x hx hxl hd
    rw [hm.shown x hx hxl (by omega)]
    exact hm.backed _ (by omega)
  have hdown := Align.down_le (ph.start base) 4096
  have hfull := Align.le_up (n := ph.stop base) (a := 4096) (by omega)
  unfold Phdr.stop at hin hlast hprot hfull
  refine ⟨?_,?_,?_⟩
  · rw [hnext]
    refine ⟨?_,?_,?_,?_,?_,?_⟩
    · change _ = max 4096 (Align.up (ph.start base+ph.pMemsz.toNat) 4096)
      rw [hlast]
      unfold Align.down Align.up
      omega
    · rintro _ ⟨⟩
      exact hperms
    · exact Align.up_lt_add (by omega)
    · intro x hx
      refine if_neg ?_
      change Align.up (ph.start base+ph.pMemsz.toNat) 4096 ≤ x at hx
      unfold Align.up Phdr.fileEnd at *
      omega
    · intro x hx hp hxl
      change Align.up (ph.start base+ph.pMemsz.toNat) 4096 ≤ x.toNat at hp
      rw [hprot x hp]
      exact hm.writable x hx (by omega) hxl
    · intro x hx hxl hc
      have hx' : ph.start base+ph.pMemsz.toNat ≤ x.toNat := by
        rcases hc with hc | hc
        · exact hc
        · exact hfull.trans hc
      rw [hmem]
      unfold segmentMem
      rw [if_neg (by omega),if_neg (by omega),if_neg (by omega),if_neg (by omega),
        hfresh x hx hxl (by omega)]
      rfl
  · intro x hx hlt
    rw [hmem]
    unfold segmentMem
    by_cases hd : x.toNat < Align.down (ph.start base) 4096
    · rw [if_pos hd]
    · rw [if_neg hd,if_pos hlt,hfresh x hx (by omega) (by omega)]
  · refine ⟨fun _ hc => absurd hc hs,fun _ => (loaded_iff hr hph p'.mem).mpr fun x hlo' hhi => ?_⟩
    have hcov := hph.covered
    unfold Phdr.stop at hhi
    unfold Phdr.fileEnd
    rw [hmem]
    unfold segmentMem
    rw [if_neg (by omega),if_neg (by omega)]
    by_cases hf : x.toNat < ph.start base+ph.pFilesz.toNat
    · rw [if_pos hf,if_pos hf,File.at,if_pos (by omega)]
    · rw [if_neg hf,if_neg hf,if_pos hhi]

/-- What of a segment that begins on the last page is not read from its file, and has to be there
already. -/
lemma loaded_shared_iff (hr : Region base limit) (hph : Loadable f base limit ph)
    (hm : Mapped f base limit prev lo last p) (hs : ph.start base < pageEnd base prev)
    (hsmall : ph.pFilesz.toNat ≤ 4096) {m : Mem 64}
    (hread : ∀ x : Usize, ph.start base ≤ x.toNat → x.toNat < pageEnd base prev →
      x.toNat < ph.start base+ph.pFilesz.toNat →
      m x = f.byte (ph.pOffset.toNat+(x.toNat-ph.start base)))
    (hrest : ∀ x : Usize, ph.start base ≤ x.toNat → x.toNat < limit →
      pageEnd base prev ≤ x.toNat ∨ ph.start base+ph.pFilesz.toNat ≤ x.toNat →
      m x = backing f base prev x.toNat) :
    Loaded f base ph m ↔ (ph.start base < pageEnd base prev → FitsPage f base prev ph) := by
  have hbase : base.toNat ≤ ph.start base := Nat.le_add_right _ _
  have hin := hph.inside
  have hfs := hph.filesz_le
  have hhigh := hr.high
  rw [loaded_iff hr hph]
  unfold Phdr.fileEnd
  unfold Phdr.stop at hin ⊢
  constructor
  · intro h _
    have hat : ∀ i < ph.pMemsz.toNat, (BitVec.ofNat 64 (ph.start base+i)).toNat =
        ph.start base+i := by
      intro i hi
      rw [BitVec.toNat_ofNat,Nat.mod_eq_of_lt (by omega)]
    refine ⟨hsmall,fun i hi hp => ?_,fun i hi hf hp => ?_⟩
    · have hx := hat i (by omega)
      have := h (BitVec.ofNat 64 (ph.start base+i)) (by omega) (by omega)
      rw [hrest _ (by omega) (by omega) (by omega),hm.backed _ (by omega),hx,
        if_pos (by omega),Nat.add_sub_cancel_left] at this
      exact this.symm
    · have hx := hat i hi
      have := h (BitVec.ofNat 64 (ph.start base+i)) (by omega) (by omega)
      rwa [hrest _ (by omega) (by omega) (by omega),hx,if_neg (by omega)] at this
  · intro h x hx hxs
    have hfit := h hs
    have hi : ph.start base+(x.toNat-ph.start base) = x.toNat := by omega
    by_cases hf : x.toNat < ph.start base+ph.pFilesz.toNat
    · rw [if_pos hf]
      by_cases hp : x.toNat < pageEnd base prev
      · exact hread x hx hp hf
      · rw [hrest x hx (by omega) (by omega),hm.backed _ (by omega),
          hfit.beyond _ (by omega) (by omega)]
    · rw [if_neg hf,hrest x hx (by omega) (by omega)]
      by_cases hp : x.toNat < pageEnd base prev
      · have := hfit.zeros (x.toNat-ph.start base) (by omega) (by omega) (by omega)
        rwa [hi] at this
      · exact hm.backed _ (by omega)

/-- A segment that begins on the last page: its bytes up to the end of the page are read, and
everything else stays. -/
lemma placed_shared (hr : Region base limit) (hph : Loadable f base limit ph)
    (hm : Mapped f base limit prev lo last p) (hlo : lo ≤ ph.start base)
    (hs : ph.start base < pageEnd base prev) (hsmall : ph.pFilesz.toNat ≤ 4096) {p' : Proc}
    (hmem : p'.mem = p.mem.fill (base+ph.pPaddr)
      (min (pageEnd base prev-ph.start base) ph.pFilesz.toNat) fun i =>
        f.byte (ph.pOffset.toNat+i))
    (hprot : ∀ x : Usize, pageEnd base prev ≤ x.toNat → p'.prot x = p.prot x) :
    Placed f base limit prev ph p last p' := by
  have hbase : base.toNat ≤ ph.start base := Nat.le_add_right _ _
  have hin := hph.inside
  have hfs := hph.filesz_le
  have hhigh := hr.high
  have hlt := hm.page_lt
  have hnext : nextMapped base prev ph = prev := if_pos (Or.inl hs)
  have hstart := start_toNat hr hph
  unfold Phdr.stop at hin
  have hread : ∀ x : Usize, p'.mem x = if ph.start base ≤ x.toNat ∧ x.toNat < ph.start base+
      min (pageEnd base prev-ph.start base) ph.pFilesz.toNat then
        f.byte (ph.pOffset.toNat+(x.toNat-ph.start base)) else p.mem x := by
    intro x
    rw [hmem,fill_apply _ _ (by rw [hstart]; omega),hstart]
  have hrest : ∀ x : Usize, ph.start base ≤ x.toNat → x.toNat < limit →
      pageEnd base prev ≤ x.toNat ∨ ph.start base+ph.pFilesz.toNat ≤ x.toNat →
      p'.mem x = backing f base prev x.toNat := by
    intro x hx hxl hc
    rw [hread,if_neg (by omega)]
    exact hm.shown x (by omega) hxl (by omega)
  refine ⟨?_,?_,loaded_shared_iff hr hph hm hs hsmall (fun x hx hp hf => ?_) hrest⟩
  · rw [hnext]
    refine ⟨hm.last_page,hm.last_perms,by unfold Phdr.stop; omega,hm.backed,
      fun x hx hp hxl => ?_,fun x hx hxl hc => ?_⟩
    · rw [hprot x hp]
      exact hm.writable x hx hp hxl
    · unfold Phdr.stop at hc
      exact hrest x (by omega) hxl (by omega)
  · intro x _ hx
    rw [hread,if_neg (by omega)]
  · rw [hread,if_pos (by omega)]

end Step

section Run
open WinterLily.Task

variable {k : Kernel} {f : File} {base : Usize} {limit lo : ℕ} {prev : Option Phdr} {last : Last}
  {ph : Phdr} {p : Proc}

lemma pageUp_start (hr : Region base limit) (hph : Loadable f base limit ph)
    (hm : Mapped f base limit prev lo last p) (hlo : lo ≤ ph.start base)
    (hs : ph.start base < pageEnd base prev) :
    (pageUp (base+ph.pPaddr)).toNat = pageEnd base prev := by
  have hin := hph.inside
  have hhigh := hr.high
  have hlt := hm.page_lt
  have hmod := pageEnd_mod base prev
  have hstart := start_toNat hr hph
  unfold Phdr.stop at hin
  rw [pageUp_toNat (by omega),hstart,Align.up]
  omega

lemma gt_zero_iff (v : Usize) : v > 0#64 ↔ 0 < v.toNat := Iff.rfl

lemma saturatingSub_toNat (a b : Usize) : (saturatingSub a b).toNat = a.toNat-b.toNat := by
  unfold saturatingSub
  split_ifs with h
  · rw [BitVec.lt_def] at h
    change 0 = _
    omega
  · rw [BitVec.lt_def] at h
    exact BitVec.toNat_sub_of_le (by rw [BitVec.le_def]; omega)

/-- The shared page is read and given back; what is left of the segment begins on the next page. -/
lemma firstPage_shared (hk : k.Willing) (hr : Region base limit) (hph : Loadable f base limit ph)
    (hm : Mapped f base limit prev lo last p) (hlo : lo ≤ ph.start base)
    (hs : ph.start base < pageEnd base prev) :
    ∃ p', firstPage k f base last ph p = (.ok ⟨pageUp (base+ph.pPaddr),
        saturatingSub ph.pMemsz 4096#64,saturatingSub ph.pFilesz 4096#64,pageUp ph.pOffset⟩,p') ∧
      p'.mem = p.mem.fill (base+ph.pPaddr)
        (min (pageEnd base prev-ph.start base) ph.pFilesz.toNat)
        (fun i => f.byte (ph.pOffset.toNat+i)) ∧
      ∀ x : Usize, pageEnd base prev ≤ x.toNat → p'.prot x = p.prot x := by
  have hup := pageUp_start hr hph hm hlo hs
  have hstart := start_toNat hr hph
  have hcov := hph.covered
  have hgap : (pageUp (base+ph.pPaddr)-(base+ph.pPaddr)).toNat =
      pageEnd base prev-ph.start base := by
    rw [BitVec.toNat_sub_of_le (by rw [BitVec.le_def,hup,hstart]; omega),hup,hstart]
  obtain ⟨p',hp',h₀,hlog,hmem⟩ := sharePage_ok hk last ph (permsOf ph.pFlags)
    ⟨base+ph.pPaddr,ph.pMemsz,ph.pFilesz,ph.pOffset⟩ p (f := f)
    (by rw [hgap]; dsimp only; omega)
  rw [hgap] at hmem
  refine ⟨p',?_,hmem,fun x hx => ?_⟩
  · unfold firstPage
    rw [if_pos ((shares_iff hr hph hm).mpr hs),hp']
  · have hlast := hm.last_page
    have hlow := hr.low
    have hbase : base.toNat ≤ ph.start base := Nat.le_add_right _ _
    have hend : (pageDown last.addr).toNat+Align.up (4096#64).toNat 4096 = pageEnd base prev := by
      rw [pageDown_toNat]
      change _+4096 = _
      omega
    have hxlt := x.isLt
    rw [prot_of_log h₀ hlog]
    change Request.apply _ (Request.apply _ p.prot) x = _
    rw [apply_of_ge _ (by rw [hend]; omega) (by rw [hend]; exact hx),
      apply_of_ge _ (by rw [hend]; omega) (by rw [hend]; exact hx)]

/-- More than a page of file on a shared page: the address that is left is aligned and the offset is
not, which is the case the code has not done. -/
lemma mapPhdr_panics (hk : k.Willing) (hr : Region base limit) (hph : Loadable f base limit ph)
    (hm : Mapped f base limit prev lo last p) (hlo : lo ≤ ph.start base)
    (hs : ph.start base < pageEnd base prev) (hbig : 4096 < ph.pFilesz.toNat) :
    ∃ p', mapPhdr k f base last ph p = (.error .panicked,p') := by
  obtain ⟨p',hp',-⟩ := firstPage_shared hk hr hph hm hlo hs
  refine ⟨p',?_⟩
  have hleft : saturatingSub ph.pFilesz 4096#64 > 0#64 := by
    rw [gt_zero_iff,saturatingSub_toNat]
    change 0 < _-4096
    omega
  have hdiff : pageUp (base+ph.pPaddr) &&& 4095#64 ≠ ph.pOffset &&& 4095#64 := by
    intro hc
    have hmod := congrArg BitVec.toNat hc
    have hpage := pageEnd_mod base prev
    have hlt := hm.page_lt
    rw [pageOffset_toNat,pageOffset_toNat,pageUp_start hr hph hm hlo hs,hph.congruent] at hmod
    omega
  unfold mapPhdr
  rw [bind_ok hp']
  unfold otherPages
  rw [if_pos hleft]
  unfold mapFile
  rw [if_pos hdiff]
  rfl

lemma mapPhdr_shared (hk : k.Willing) (hr : Region base limit) (hph : Loadable f base limit ph)
    (hm : Mapped f base limit prev lo last p) (hlo : lo ≤ ph.start base)
    (hs : ph.start base < pageEnd base prev) (hsmall : ph.pFilesz.toNat ≤ 4096) :
    ∃ last' p', mapPhdr k f base last ph p = (.ok last',p') ∧
      Placed f base limit prev ph p last' p' := by
  obtain ⟨p',hp',hmem,hprot⟩ := firstPage_shared hk hr hph hm hlo hs
  refine ⟨last,p',?_,placed_shared hr hph hm hlo hs hsmall hmem hprot⟩
  have hleft : ¬ saturatingSub ph.pFilesz 4096#64 > 0#64 := by
    rw [gt_zero_iff,saturatingSub_toNat]
    change ¬ 0 < _-4096
    omega
  unfold mapPhdr
  rw [bind_ok hp']
  unfold otherPages
  rw [if_neg hleft]
  rfl

lemma mapPhdr_alone (hk : k.Willing) (hr : Region base limit) (hph : Loadable f base limit ph)
    (hm : Mapped f base limit prev lo last p) (hlo : lo ≤ ph.start base)
    (hs : ¬ ph.start base < pageEnd base prev) :
    ∃ last' p', mapPhdr k f base last ph p = (.ok last',p') ∧
      Placed f base limit prev ph p last' p' := by
  have hfirst : firstPage k f base last ph p =
      (.ok ⟨base+ph.pPaddr,ph.pMemsz,ph.pFilesz,ph.pOffset⟩,p) := by
    unfold firstPage
    rw [if_neg fun hc => hs ((shares_iff hr hph hm).mp hc)]
    rfl
  unfold mapPhdr
  rw [bind_ok hfirst]
  unfold otherPages
  by_cases hz : ph.pFilesz.toNat = 0
  · refine ⟨last,p,?_,placed_skip hr hph hm hlo hs hz⟩
    rw [if_neg (by rw [gt_zero_iff]; exact Nat.not_lt.mpr hz.le)]
    rfl
  · have hstart := start_toNat hr hph
    have hin := hph.inside
    have hhigh := hr.high
    have hbase : base.toNat ≤ ph.start base := Nat.le_add_right _ _
    have hfs := hph.filesz_le
    unfold Phdr.stop at hin
    have hw : ∀ x : Usize, Align.up (ph.start base+ph.pFilesz.toNat) 4096 ≤ x.toNat →
        x.toNat < ph.start base+ph.pMemsz.toNat → (p.prot x).has Prot.write = true := by
      intro x hx hxl
      have hfull := Align.le_up (n := ph.start base+ph.pFilesz.toNat) (a := 4096) (by omega)
      exact hm.writable x (by omega) (by omega) (by omega)
    rw [← hstart] at hw
    obtain ⟨p',hp',hmem,hprot⟩ := mapFile_ok hk f ph (permsOf ph.pFlags)
      (c := ⟨base+ph.pPaddr,ph.pMemsz,ph.pFilesz,ph.pOffset⟩) p rfl
      (by rw [hstart]; exact hph.congruent) hfs (by dsimp only; omega) hw
    dsimp only at hmem hprot
    rw [hstart] at hmem hprot
    refine ⟨⟨base+ph.pPaddr+ph.pMemsz-1#64,permsOf ph.pFlags⟩,p',?_,
      placed_segment hr hph hm hs (by omega) ?_ rfl hmem hprot⟩
    · rw [if_pos (by rw [gt_zero_iff]; exact Nat.pos_of_ne_zero hz)]
      exact hp'
    · change (base+ph.pPaddr+ph.pMemsz-1#64).toNat = _
      have hone : (1#64).toNat = 1 := rfl
      have hstop : (base+ph.pPaddr+ph.pMemsz).toNat = ph.stop base := by
        rw [BitVec.toNat_add_of_lt (by omega),hstart,Phdr.stop]
      rw [BitVec.toNat_sub_of_le,hstop,hone]
      rw [BitVec.le_def,hstop,hone,Phdr.stop]
      omega

/-- The two outcomes of a header. -/
lemma mapPhdr_cases (hk : k.Willing) (hr : Region base limit) (hph : Loadable f base limit ph)
    (hm : Mapped f base limit prev lo last p) (hlo : lo ≤ ph.start base) :
    (¬ (ph.start base < pageEnd base prev → FitsPage f base prev ph) ∧
      ∃ p', mapPhdr k f base last ph p = (.error .panicked,p')) ∨
    ∃ last' p', mapPhdr k f base last ph p = (.ok last',p') ∧
      Placed f base limit prev ph p last' p' := by
  by_cases hs : ph.start base < pageEnd base prev
  · by_cases hsmall : ph.pFilesz.toNat ≤ 4096
    · exact Or.inr (mapPhdr_shared hk hr hph hm hlo hs hsmall)
    · refine Or.inl ⟨fun hc => hsmall (hc hs).small,?_⟩
      exact mapPhdr_panics hk hr hph hm hlo hs (by omega)
  · exact Or.inr (mapPhdr_alone hk hr hph hm hlo hs)

/-- The headers that a loop has still to do lie in the region, in order, from `lo` on. -/
structure Ahead (f : File) (base : Usize) (limit lo : ℕ) (phs : List Phdr) : Prop where
  loadable : ∀ ph ∈ phs, Loadable f base limit ph
  above : ∀ ph ∈ phs, lo ≤ ph.start base
  sorted : phs.Pairwise fun a b => a.stop base ≤ b.start base

lemma Ahead.tail {phs : List Phdr} (h : Ahead f base limit lo (ph::phs)) :
    Ahead f base limit (ph.stop base) phs := by
  obtain ⟨hhead,htail⟩ := List.pairwise_cons.mp h.sorted
  exact ⟨fun a ha => h.loadable a (List.mem_cons_of_mem _ ha),hhead,htail⟩

/-- What lies below the headers is kept. -/
lemma mapLoop_kept (hk : k.Willing) (hr : Region base limit) {phs : List Phdr}
    (hphs : Ahead f base limit lo phs) (hm : Mapped f base limit prev lo last p) {p' : Proc}
    (h : mapLoop k f base last phs p = (.ok (),p')) {x : Usize} (hx : base.toNat ≤ x.toNat)
    (hlo : x.toNat < lo) : p'.mem x = p.mem x := by
  induction phs generalizing prev lo last p with
  | nil =>
    cases h
    rfl
  | cons ph phs ih =>
    have hstart := hphs.above ph (by simp)
    have hstop : ph.start base ≤ ph.stop base := Nat.le_add_right _ _
    unfold mapLoop at h
    rcases mapPhdr_cases hk hr (hphs.loadable ph (by simp)) hm hstart with
      ⟨-,q,hq⟩ | ⟨last',q,hq,hpl⟩
    · rw [bind_stop hq] at h
      cases h
    · rw [bind_ok hq] at h
      rw [ih hphs.tail hpl.mapped h (by omega),hpl.kept x hx (by omega)]

/-- The loop returns with every header right exactly when all of them fit. -/
lemma mapLoop_iff (hk : k.Willing) (hr : Region base limit) {phs : List Phdr}
    (hphs : Ahead f base limit lo phs) (hm : Mapped f base limit prev lo last p) :
    (∃ p', mapLoop k f base last phs p = (.ok (),p') ∧ ∀ ph ∈ phs, Loaded f base ph p'.mem) ↔
      Fits f base prev phs := by
  induction phs generalizing prev lo last p with
  | nil => exact ⟨fun _ => trivial,fun _ => ⟨p,rfl,by simp⟩⟩
  | cons ph phs ih =>
    have hph := hphs.loadable ph (by simp)
    unfold mapLoop Fits
    rcases mapPhdr_cases hk hr hph hm (hphs.above ph (by simp)) with
      ⟨hmiss,q,hq⟩ | ⟨last',q,hq,hpl⟩
    · refine ⟨?_,fun h => absurd h.1 hmiss⟩
      rintro ⟨p',hp',-⟩
      rw [bind_stop hq] at hp'
      cases hp'
    · rw [bind_ok hq,← hpl.loaded,← ih hphs.tail hpl.mapped]
      have hbase : base.toNat ≤ ph.start base := Nat.le_add_right _ _
      -- the headers that follow leave this one as it is
      have hsame : ∀ p', mapLoop k f base last' phs q = (.ok (),p') →
          (Loaded f base ph p'.mem ↔ Loaded f base ph q.mem) := by
        intro p' hp'
        rw [loaded_iff hr hph,loaded_iff hr hph]
        refine forall_congr' fun x => forall_congr' fun hx => forall_congr' fun hxs => ?_
        rw [mapLoop_kept hk hr hphs.tail hpl.mapped hp' (by omega) hxs]
      constructor
      · rintro ⟨p',hp',hall⟩
        refine ⟨(hsame p' hp').mp (hall ph (by simp)),p',hp',fun a ha => ?_⟩
        exact hall a (List.mem_cons_of_mem _ ha)
      · rintro ⟨hone,p',hp',hall⟩
        refine ⟨p',hp',fun a ha => ?_⟩
        rcases List.mem_cons.mp ha with rfl | ha
        · exact (hsame p' hp').mpr hone
        · exact hall a ha

lemma mapPhdrs_iff (hk : k.Willing) (hr : Region base limit) {phs : List Phdr}
    (hphs : Ahead f base limit lo phs) (hm : Mapped f base limit none lo ⟨0#64,0#32⟩ p) :
    (∃ p', mapPhdrs k f phs base p = (.ok base,p') ∧ ∀ ph ∈ phs, Loaded f base ph p'.mem) ↔
      Fits f base none phs := by
  rw [← mapLoop_iff hk hr hphs hm]
  constructor
  · rintro ⟨p',hp',hall⟩
    obtain ⟨_,q,hq,hret⟩ := of_bind_ok hp'
    cases hret
    exact ⟨_,hq,hall⟩
  · rintro ⟨p',hp',hall⟩
    refine ⟨p',?_,hall⟩
    unfold mapPhdrs
    rw [bind_ok hp']
    rfl

lemma of_allocBaseAddr (hk : k.Willing) {search : SearchType} {maxPma : Usize} {p₀ : Proc}
    (h : allocBaseAddr k search maxPma p₀ = (.ok base,p)) :
    p.prot0 = p₀.prot0 ∧
      p.log = p₀.log++[⟨.mmap,base,pageUp maxPma,Prot.read ||| Prot.write,true⟩] ∧
      p.mem = p₀.mem.fill base (Align.up (pageUp maxPma).toNat 4096) fun _ => 0#8 := by
  change (issue k .mmap (p₀.bases search) (pageUp maxPma) (Prot.read ||| Prot.write) .allocError >>=
    fun _ => _) { p₀ with
      bases := Function.update p₀.bases search (p₀.bases search+pageUp maxPma) } = _ at h
  rw [bind_ok (issue_ok hk _ _ _ _ _ _)] at h
  cases h
  exact ⟨rfl,rfl,rfl⟩

/-- The region is zeroed and may be written, as the loop expects it. -/
lemma allocBaseAddr_mapped (hk : k.Willing) {search : SearchType} {maxPma : Usize} {p₀ : Proc}
    (h : allocBaseAddr k search maxPma p₀ = (.ok base,p))
    (hr : Region base (base.toNat+Align.up maxPma.toNat 4096)) (f : File) :
    Mapped f base (base.toNat+Align.up maxPma.toNat 4096) none base.toNat ⟨0#64,0#32⟩ p := by
  have hhigh := hr.high
  have hle := Align.le_up (n := maxPma.toNat) (a := 4096) (by omega)
  have hpages : Align.up (pageUp maxPma).toNat 4096 = Align.up maxPma.toNat 4096 := by
    rw [pageUp_toNat (by omega)]
    unfold Align.up
    omega
  obtain ⟨h₀,hlog,hmem⟩ := of_allocBaseAddr hk h
  refine ⟨rfl,nofun,Nat.lt_add_left _ (Nat.zero_lt_succ 4095),fun _ _ => rfl,fun x hx _ hxl => ?_,
    fun x hx hxl _ => ?_⟩
  · rw [prot_of_log h₀ hlog]
    change ((Request.apply _ p₀.prot) x).has Prot.write = true
    rw [apply_of_mem rfl _ (by dsimp only; omega) hx (by dsimp only; omega)]
    exact readWrite_writable
  · rw [hmem,hpages,fill_apply _ _ (by omega),if_pos ⟨hx,hxl⟩]
    rfl

end Run

/-- Over a fresh region and with every call succeeding, `map_phdrs` builds the image of a
well-formed list of headers exactly when each header that begins on the page where the segment
mapped before it ended fits that page. -/
theorem image_built_iff {k : Kernel} (hk : k.Willing) {f : File} {search : SearchType}
    {maxPma base : Usize} {p₀ p : Proc} (halloc : allocBaseAddr k search maxPma p₀ = (.ok base,p))
    (hr : Region base (base.toNat+Align.up maxPma.toNat 4096)) {phs : List Phdr}
    (hphs : ∀ ph ∈ phs, Loadable f base (base.toNat+Align.up maxPma.toNat 4096) ph)
    (hsorted : phs.Pairwise fun a b => a.stop base ≤ b.start base) :
    (∃ p', mapPhdrs k f phs base p = (.ok base,p') ∧ ∀ ph ∈ phs, Loaded f base ph p'.mem) ↔
      Fits f base none phs :=
  mapPhdrs_iff hk hr ⟨hphs,fun _ _ => Nat.le_add_right _ _,hsorted⟩
    (allocBaseAddr_mapped hk halloc hr f)

/-- A process before its first image. -/
def Proc.boot : Proc := ⟨fun _ => 0#8,fun _ => 0#32,[],0,0,fun _ => 0x1000000#64⟩

/-- A file without zeros. -/
def File.ones : File := ⟨0x4000,fun _ => 1#8⟩

/-- Half a page of code, and a segment of `len` bytes right behind it. -/
def twoSegments (len : Usize) : List Phdr :=
  [⟨5#32,0#64,0#64,0#64,0x800#64,0x800#64⟩,⟨5#32,0x800#64,0x800#64,0x800#64,len,len⟩]

lemma twoSegments_region :
    Region 0x1000000#64 ((0x1000000#64).toNat+Align.up (0x1800#64).toNat 4096) := by
  constructor <;> decide

lemma twoSegments_loadable {n : Usize} (h : n.toNat ≤ 0x1000) :
    ∀ ph ∈ twoSegments n, Loadable .ones 0x1000000#64
      ((0x1000000#64).toNat+Align.up (0x1800#64).toNat 4096) ph := by
  intro ph hph
  rcases List.mem_pair.mp hph with rfl | rfl
  · constructor <;> decide
  · refine ⟨le_refl _,rfl,?_,?_,?_⟩
    · change 0x800%4096 = (0x1000000+0x800)%4096
      decide
    · change 0x1000000+0x800+n.toNat ≤ 0x1000000+0x2000
      omega
    · change 0x800+n.toNat ≤ 0x4000
      omega

lemma twoSegments_sorted (len : Usize) :
    (twoSegments len).Pairwise fun a b => a.stop 0x1000000#64 ≤ b.start 0x1000000#64 := by
  refine List.pairwise_pair.mpr ?_
  change 0x1000000+0+0x800 ≤ 0x1000000+0x800
  omega

/-- The second segment fits when it ends on the page it shares. -/
lemma twoSegments_fits_iff (len : Usize) :
    Fits .ones 0x1000000#64 none (twoSegments len) ↔ len.toNat ≤ 0x800 := by
  have hnext : nextMapped 0x1000000#64 none ⟨5#32,0#64,0#64,0#64,0x800#64,0x800#64⟩ =
      some ⟨5#32,0#64,0#64,0#64,0x800#64,0x800#64⟩ := by decide
  constructor
  · intro h
    by_contra hlen
    have hfit := h.2.1
    rw [hnext] at hfit
    have hbyte := (hfit (by change 0x1000800 < 0x1001000; omega)).beyond 0x800
      (by change 0x800 < len.toNat; omega) (by change 0x1001000 ≤ 0x1000800+0x800; omega)
    revert hbyte
    change ¬ 1#8 = 0#8
    decide
  · intro hlen
    refine ⟨fun hc => absurd hc (Nat.not_lt_zero _),?_,trivial⟩
    rw [hnext]
    refine fun _ => ⟨?_,fun i hi hp => ?_,fun i hi hf => absurd hi (Nat.not_lt.mpr hf)⟩
    · change len.toNat ≤ 4096
      omega
    · change 0x1001000 ≤ 0x1000800+i at hp
      change i < len.toNat at hi
      omega

lemma boot_region :
    ∃ p, allocBaseAddr .willing .winter 0x1800#64 .boot = (.ok 0x1000000#64,p) := ⟨_,rfl⟩

theorem image_built_iff_sharedPage :
    ∃ p, allocBaseAddr .willing .winter 0x1800#64 .boot = (.ok 0x1000000#64,p) ∧
      ∃ p', mapPhdrs .willing .ones (twoSegments 0x100#64) 0x1000000#64 p =
          (.ok 0x1000000#64,p') ∧
        ∀ ph ∈ twoSegments 0x100#64, Loaded .ones 0x1000000#64 ph p'.mem := by
  obtain ⟨p,hp⟩ := boot_region
  refine ⟨p,hp,(image_built_iff (fun _ => rfl) hp twoSegments_region
    (twoSegments_loadable (by decide)) (twoSegments_sorted _)).mpr ?_⟩
  exact (twoSegments_fits_iff _).mpr (by decide)

/-- A page of file that begins in the middle of a page loses its second half. -/
theorem crossing_segment_truncated :
    (∀ ph ∈ twoSegments 0x1000#64, Loadable .ones 0x1000000#64
        ((0x1000000#64).toNat+Align.up (0x1800#64).toNat 4096) ph) ∧
      ∃ p, allocBaseAddr .willing .winter 0x1800#64 .boot = (.ok 0x1000000#64,p) ∧
        ¬ ∃ p', mapPhdrs .willing .ones (twoSegments 0x1000#64) 0x1000000#64 p =
            (.ok 0x1000000#64,p') ∧
          ∀ ph ∈ twoSegments 0x1000#64, Loaded .ones 0x1000000#64 ph p'.mem := by
  obtain ⟨p,hp⟩ := boot_region
  have hload := twoSegments_loadable (n := 0x1000#64) (by decide)
  refine ⟨hload,p,hp,fun h => ?_⟩
  have hm := allocBaseAddr_mapped (fun _ => rfl) hp twoSegments_region .ones
  have hfits := (mapPhdrs_iff (fun _ => rfl) twoSegments_region
    ⟨hload,fun _ _ => Nat.le_add_right _ _,twoSegments_sorted _⟩ hm).mp h
  have hlen := (twoSegments_fits_iff _).mp hfits
  revert hlen
  decide

end WinterLily.Loader
