import WinterLily.Loader.Segments

/-! One file mapping of `map_phdrs` under a kernel that grants every request: the memory it leaves
and the protections it keeps. -/
namespace WinterLily.Loader
open WinterLily.Memory

lemma readWrite_writable : (Prot.read ||| Prot.write).has Prot.write = true := by decide

section Words

variable {p : Proc}

lemma apply_of_mem {r : Request} (hg : r.granted = true) (q : Usize → Prot)
    (h : r.addr.toNat+Align.up r.len.toNat 4096 ≤ 2^64) {x : Usize} (hlo : r.addr.toNat ≤ x.toNat)
    (hhi : x.toNat < r.addr.toNat+Align.up r.len.toNat 4096) : r.apply q x = r.prot :=
  if_pos ⟨hg,(sub_toNat_lt_iff h x).mpr ⟨hlo,hhi⟩⟩

lemma apply_of_ge {r : Request} (q : Usize → Prot)
    (h : r.addr.toNat+Align.up r.len.toNat 4096 ≤ 2^64) {x : Usize}
    (hx : r.addr.toNat+Align.up r.len.toNat 4096 ≤ x.toNat) : r.apply q x = q x := by
  refine if_neg fun hc => ?_
  have := ((sub_toNat_lt_iff h x).mp hc.2).2
  omega

lemma prot_of_log {q : Proc} {rs : List Request} (h₀ : q.prot0 = p.prot0)
    (hl : q.log = p.log++rs) : q.prot = replay p.prot rs := by
  rw [Proc.prot,h₀,hl,replay,List.foldl_append]
  rfl

lemma writeBytes_ok {addr n : Usize} (h : addr.toNat+n.toNat ≤ 2^64)
    (hw : ∀ x : Usize, addr.toNat ≤ x.toNat → x.toNat < addr.toNat+n.toNat →
      (p.prot x).has Prot.write = true) :
    writeBytes addr n p = (.ok (),{ p with mem := p.mem.fill addr n.toNat fun _ => 0#8 }) := by
  refine if_pos fun i hi => ?_
  have hx : (addr+BitVec.ofNat 64 i).toNat = addr.toNat+i := add_ofNat_toNat (by omega)
  exact hw _ (by omega) (by omega)

end Words

/-- Memory after a segment of `n` file bytes and `l` bytes in all was mapped at `a`: zeros from the
start of its page on, the file, zeros again, and what else the mapping shows of the file. -/
def segmentMem (f : File) (a n l off : ℕ) (m : Mem 64) : Mem 64 := fun x =>
  if x.toNat < Align.down a 4096 then m x
  else if x.toNat < a then 0#8
  else if x.toNat < a+n then f.at (off+(x.toNat-a))
  else if x.toNat < a+l then 0#8
  else if x.toNat < Align.up (a+n) 4096 then f.at (off+(x.toNat-a))
  else m x

/-- The words that `mapFile` computes from a cursor, none of which wraps. -/
structure Cursor.Words (c : Cursor) : Prop where
  page : (pageDown c.addr).toNat = Align.down c.addr.toNat 4096
  filePage : (pageDown c.offset).toNat = Align.down c.offset.toNat 4096
  mapped : (c.offset-pageDown c.offset+c.fileLen).toNat = c.addr.toNat%4096+c.fileLen.toNat
  guarded : (c.offset-pageDown c.offset+c.len).toNat = c.addr.toNat%4096+c.len.toNat
  head : (c.addr-pageDown c.addr).toNat = c.addr.toNat%4096
  fileEnd : (c.addr+c.fileLen).toNat = c.addr.toNat+c.fileLen.toNat
  bss : (c.addr+c.len-(c.addr+c.fileLen)).toNat = c.len.toNat-c.fileLen.toNat

lemma sub_pageDown_toNat (v : Usize) : (v-pageDown v).toNat = v.toNat%4096 := by
  rw [BitVec.toNat_sub_of_le (by rw [BitVec.le_def,pageDown_toNat]; exact Align.down_le _ _),
    pageDown_toNat,Align.down]
  omega

lemma Cursor.words {c : Cursor} (hcong : c.offset.toNat%4096 = c.addr.toNat%4096)
    (hle : c.fileLen.toNat ≤ c.len.toNat) (hend : c.addr.toNat+c.len.toNat+4096 ≤ 2^64) :
    c.Words := by
  have hfile : (c.addr+c.fileLen).toNat = c.addr.toNat+c.fileLen.toNat :=
    BitVec.toNat_add_of_lt (by omega)
  have hstop : (c.addr+c.len).toNat = c.addr.toNat+c.len.toNat :=
    BitVec.toNat_add_of_lt (by omega)
  refine ⟨pageDown_toNat _,pageDown_toNat _,?_,?_,sub_pageDown_toNat _,hfile,?_⟩
  · rw [BitVec.toNat_add,sub_pageDown_toNat,hcong,Nat.mod_eq_of_lt (by omega)]
  · rw [BitVec.toNat_add,sub_pageDown_toNat,hcong,Nat.mod_eq_of_lt (by omega)]
  · rw [BitVec.toNat_sub_of_le (by rw [BitVec.le_def,hfile,hstop]; omega),hfile,hstop]
    omega

/-- A range from the start of the first page on, in whole pages. -/
lemma pages_end (a n : ℕ) :
    Align.down a 4096+Align.up (a%4096+n) 4096 = Align.up (a+n) 4096 := by
  unfold Align.down Align.up
  omega

lemma segmentMem_eq (f : File) {c : Cursor} (m : Mem 64) (hc : c.Words)
    (hcong : c.offset.toNat%4096 = c.addr.toNat%4096) (hle : c.fileLen.toNat ≤ c.len.toNat)
    (hend : c.addr.toNat+c.len.toNat+4096 ≤ 2^64) :
    ((m.fill (pageDown c.addr) (Align.up (c.offset-pageDown c.offset+c.fileLen).toNat 4096)
          fun i => f.at ((pageDown c.offset).toNat+i)).fill (pageDown c.addr)
        (c.addr-pageDown c.addr).toNat fun _ => 0#8).fill (c.addr+c.fileLen)
      (c.addr+c.len-(c.addr+c.fileLen)).toNat (fun _ => 0#8) =
    segmentMem f c.addr.toNat c.fileLen.toNat c.len.toNat c.offset.toNat m := by
  have hpages := pages_end c.addr.toNat c.fileLen.toNat
  have hup := Align.up_lt_add (n := c.addr.toNat+c.fileLen.toNat) (a := 4096) (by omega)
  have hfull := Align.le_up (n := c.addr.toNat+c.fileLen.toNat) (a := 4096) (by omega)
  have hdown := Align.down_le c.addr.toNat 4096
  have hmod : c.addr.toNat = Align.down c.addr.toNat 4096+c.addr.toNat%4096 := by
    unfold Align.down
    omega
  have hmod' : c.offset.toNat = Align.down c.offset.toNat 4096+c.offset.toNat%4096 := by
    unfold Align.down
    omega
  funext x
  rw [fill_apply _ _ (by rw [hc.fileEnd,hc.bss]; omega),
    fill_apply _ _ (by rw [hc.page,hc.head]; omega),
    fill_apply _ _ (by rw [hc.page,hc.mapped]; omega),hc.page,hc.filePage,hc.mapped,hc.head,
    hc.fileEnd,hc.bss]
  have hfile : c.addr.toNat ≤ x.toNat → Align.down c.offset.toNat 4096+
      (x.toNat-Align.down c.addr.toNat 4096) = c.offset.toNat+(x.toNat-c.addr.toNat) := by omega
  unfold segmentMem
  -- by the five bounds, in the order in which the segment is laid out
  by_cases hpage : x.toNat < Align.down c.addr.toNat 4096
  · rw [if_pos hpage,if_neg (by omega),if_neg (by omega),if_neg (by omega)]
  rw [if_neg hpage]
  by_cases hhead : x.toNat < c.addr.toNat
  · rw [if_pos hhead,if_neg (by omega),if_pos (by omega)]
  rw [if_neg hhead]
  by_cases hbytes : x.toNat < c.addr.toNat+c.fileLen.toNat
  · rw [if_pos hbytes,if_neg (by omega),if_neg (by omega),if_pos (by omega),hfile (by omega)]
  rw [if_neg hbytes]
  by_cases hbss : x.toNat < c.addr.toNat+c.len.toNat
  · rw [if_pos hbss,if_pos (by omega)]
  rw [if_neg hbss,if_neg (by omega),if_neg (by omega)]
  by_cases htail : x.toNat < Align.up (c.addr.toNat+c.fileLen.toNat) 4096
  · rw [if_pos htail,if_pos (by omega),hfile (by omega)]
  · rw [if_neg htail,if_neg (by omega)]

/-- The request that maps the file part. -/
def Cursor.opening (c : Cursor) : Request :=
  ⟨.mmap,pageDown c.addr,c.offset-pageDown c.offset+c.fileLen,Prot.read ||| Prot.write,true⟩

/-- The request that sets the protections of the finished segment. -/
def Cursor.closing (c : Cursor) (perms : Prot) : Request :=
  ⟨.mprotect,pageDown c.addr,c.offset-pageDown c.offset+c.len,perms,true⟩

section Requests

variable {c : Cursor} (hc : c.Words)
include hc

lemma opening_end : c.opening.addr.toNat+Align.up c.opening.len.toNat 4096 =
    Align.up (c.addr.toNat+c.fileLen.toNat) 4096 := by
  unfold Cursor.opening
  rw [hc.page,hc.mapped,pages_end]

lemma closing_end (perms : Prot) :
    (c.closing perms).addr.toNat+Align.up (c.closing perms).len.toNat 4096 =
      Align.up (c.addr.toNat+c.len.toNat) 4096 := by
  unfold Cursor.closing
  rw [hc.page,hc.guarded,pages_end]

lemma opening_writable (q : Usize → Prot) (hle : c.fileLen.toNat ≤ c.len.toNat)
    (hend : c.addr.toNat+c.len.toNat+4096 ≤ 2^64)
    (hw : ∀ x : Usize, Align.up (c.addr.toNat+c.fileLen.toNat) 4096 ≤ x.toNat →
      x.toNat < c.addr.toNat+c.len.toNat → (q x).has Prot.write = true) {x : Usize}
    (hlo : Align.down c.addr.toNat 4096 ≤ x.toNat) (hhi : x.toNat < c.addr.toNat+c.len.toNat) :
    (c.opening.apply q x).has Prot.write = true := by
  have hup := Align.up_lt_add (n := c.addr.toNat+c.fileLen.toNat) (a := 4096) (by omega)
  have hrange := opening_end hc
  by_cases hx : x.toNat < Align.up (c.addr.toNat+c.fileLen.toNat) 4096
  · have hpage : c.opening.addr.toNat ≤ x.toNat := by
      change (pageDown c.addr).toNat ≤ _
      rw [hc.page]
      exact hlo
    rw [apply_of_mem rfl _ (by omega) hpage (by omega)]
    exact readWrite_writable
  · rw [apply_of_ge _ (by omega) (by omega)]
    exact hw x (by omega) hhi

lemma closing_keeps (q : Usize → Prot) (perms : Prot) (hle : c.fileLen.toNat ≤ c.len.toNat)
    {x : Usize} (hx : Align.up (c.addr.toNat+c.len.toNat) 4096 ≤ x.toNat) :
    (c.closing perms).apply (c.opening.apply q) x = q x := by
  have hmono : Align.up (c.addr.toNat+c.fileLen.toNat) 4096 ≤
      Align.up (c.addr.toNat+c.len.toNat) 4096 := by
    unfold Align.up
    omega
  have ho := opening_end hc
  have hcl := closing_end hc perms
  rw [apply_of_ge _ (by omega) (by omega),apply_of_ge _ (by omega) (by omega)]

end Requests

section Willing
open WinterLily.Task

variable {k : Kernel} (hk : k.Willing)
include hk

lemma mmapFile_ok (f : File) (addr len : Usize) (prot : Prot) (offset : Usize) (p : Proc) :
    mmapFile k f addr len prot offset p = (.ok (),{ p with
      calls := p.calls+1
      log := p.log++[⟨.mmap,addr,len,prot,true⟩]
      mem := p.mem.fill addr (Align.up len.toNat 4096) fun i => f.at (offset.toNat+i) }) := by
  unfold mmapFile
  rw [bind_ok (issue_ok hk .mmap addr len prot .loadError p)]
  rfl

/-- Mapping the file part of a segment, when the memory past it may be written. -/
lemma mapFile_ok (f : File) (ph : Phdr) (perms : Prot) {c : Cursor} (p : Proc)
    (hoff : c.offset = ph.pOffset) (hcong : c.offset.toNat%4096 = c.addr.toNat%4096)
    (hle : c.fileLen.toNat ≤ c.len.toNat) (hend : c.addr.toNat+c.len.toNat+4096 ≤ 2^64)
    (hw : ∀ x : Usize, Align.up (c.addr.toNat+c.fileLen.toNat) 4096 ≤ x.toNat →
      x.toNat < c.addr.toNat+c.len.toNat → (p.prot x).has Prot.write = true) :
    ∃ p', mapFile k f ph perms c p = (.ok ⟨c.addr+c.len-1#64,perms⟩,p') ∧
      p'.mem = segmentMem f c.addr.toNat c.fileLen.toNat c.len.toNat c.offset.toNat p.mem ∧
      ∀ x : Usize, Align.up (c.addr.toNat+c.len.toNat) 4096 ≤ x.toNat →
        p'.prot x = p.prot x := by
  have hsame : ¬ c.addr &&& 4095#64 ≠ ph.pOffset &&& 4095#64 := by
    rw [not_not,← hoff]
    apply BitVec.eq_of_toNat_eq
    rw [pageOffset_toNat,pageOffset_toNat,hcong]
  have hc := Cursor.words hcong hle hend
  let p₁ : Proc := { p with
    calls := p.calls+1
    log := p.log++[c.opening]
    mem := p.mem.fill (pageDown c.addr)
      (Align.up (c.offset-pageDown c.offset+c.fileLen).toNat 4096)
      fun i => f.at ((pageDown c.offset).toNat+i) }
  have hopen : mmapFile k f (pageDown c.addr) (c.offset-pageDown c.offset+c.fileLen)
      (Prot.read ||| Prot.write) (pageDown c.offset) p = (.ok (),p₁) := mmapFile_ok hk f _ _ _ _ p
  have hprot₁ : p₁.prot = c.opening.apply p.prot := by
    rw [prot_of_log (p := p) (q := p₁) rfl rfl]
    rfl
  have hwrite : ∀ x : Usize, Align.down c.addr.toNat 4096 ≤ x.toNat →
      x.toNat < c.addr.toNat+c.len.toNat → (p₁.prot x).has Prot.write = true := by
    intro x hlo hhi
    rw [hprot₁]
    exact opening_writable hc p.prot hle hend hw hlo hhi
  let p₂ : Proc := { p₁ with
    mem := p₁.mem.fill (pageDown c.addr) (c.addr-pageDown c.addr).toNat fun _ => 0#8 }
  have hhead : writeBytes (pageDown c.addr) (c.addr-pageDown c.addr) p₁ = (.ok (),p₂) := by
    have hdown : Align.down c.addr.toNat 4096+c.addr.toNat%4096 = c.addr.toNat := by
      unfold Align.down
      omega
    refine writeBytes_ok (by rw [hc.page,hc.head]; omega) fun x hlo hhi => ?_
    rw [hc.page] at hlo hhi
    rw [hc.head] at hhi
    exact hwrite x hlo (by omega)
  let p₃ : Proc := { p₂ with
    mem := p₂.mem.fill (c.addr+c.fileLen) (c.addr+c.len-(c.addr+c.fileLen)).toNat fun _ => 0#8 }
  have hbss : writeBytes (c.addr+c.fileLen) (c.addr+c.len-(c.addr+c.fileLen)) p₂ = (.ok (),p₃) := by
    have hdown := Align.down_le c.addr.toNat 4096
    refine writeBytes_ok (by rw [hc.fileEnd,hc.bss]; omega) fun x hlo hhi => ?_
    rw [hc.fileEnd] at hlo hhi
    rw [hc.bss] at hhi
    exact hwrite x (by omega) (by omega)
  have hclose := mprotect_ok hk (pageDown c.addr) (c.offset-pageDown c.offset+c.len) perms p₃
  refine ⟨{ p₃ with calls := p₃.calls+1, log := p₃.log++[c.closing perms] },?_,?_,?_⟩
  · unfold mapFile
    rw [if_neg hsame]
    dsimp only
    rw [bind_ok hopen,bind_ok hhead,bind_ok hbss,bind_ok hclose]
    rfl
  · exact segmentMem_eq f p.mem hc hcong hle hend
  · intro x hx
    rw [prot_of_log (p := p₁)
      (q := { p₃ with calls := p₃.calls+1, log := p₃.log++[c.closing perms] }) rfl rfl,hprot₁]
    exact closing_keeps hc p.prot perms hle hx

end Willing

end WinterLily.Loader
