import WinterLily.Base.Transition
import WinterLily.Loader.Segments

/-! Where modules are placed: `alloc_base_addr` of `wl-ld-lilium/src/loader.rs` called by several
threads, and the region that `__rust_entry` registers as exempt from interception. A call first
moves a cursor and then tries to map the range it took. -/
namespace WinterLily.Loader
open WinterLily.Memory WinterLily.Transition

/-- `NATIVE_REGION_SIZE`. -/
def nativeRegionSize : Usize := 4096#64*4096#64*64#64

/-- `SLIDE_MASK`. -/
def slideMask : Usize := (4096#64*8#64-1#64) <<< 12

/-- `native_region_base`: the region ends where the loader's own image does. -/
def nativeRegionBase (vaddrEnd : Usize) : Usize := pageUp vaddrEnd-nativeRegionSize

def nativeRegion (vaddrEnd : Usize) : Span 64 := ⟨nativeRegionBase vaddrEnd,nativeRegionSize⟩

/-- `lilium_base_addr`. -/
def liliumBaseAddr (rand : Usize) : Usize := (rand &&& slideMask)+4096#64*4096#64

/-- The cursors, the range each thread has taken and not yet mapped, all mappings, and those of
them that `alloc_base_addr` returned, latest first. -/
structure Placing (ι : Type*) where
  bases : SearchType → Usize
  pending : ι → Option (SearchType × Span 64)
  mapped : List (Span 64)
  granted : List (SearchType × Span 64)

/-- Where the cursor of a kind starts. -/
def startBase (vaddrEnd rand : Usize) : SearchType → Usize
  | .host => nativeRegionBase vaddrEnd
  | .winter => liliumBaseAddr rand

def Placing.initial {ι : Type*} (vaddrEnd rand : Usize) (mapped : List (Span 64)) : Placing ι :=
  ⟨startBase vaddrEnd rand,fun _ => none,mapped,[]⟩

inductive PlaceEvent (ι : Type*)
  | take (i : ι) (search : SearchType) (maxPma : Usize)
  | map (i : ι)

/-- The range the next call of this kind takes. -/
def Placing.next {ι : Type*} (s : Placing ι) (search : SearchType) (maxPma : Usize) : Span 64 :=
  ⟨s.bases search,pageUp maxPma⟩

/-- `fetch_byte_add`, and the `mmap` that fails exactly when its range meets a mapping. -/
def placeStep {ι : Type*} [DecidableEq ι] (s : Placing ι) : PlaceEvent ι → Option (Placing ι)
  | .take i search maxPma =>
    match s.pending i with
    | some _ => none
    | none => some { s with
        bases := Function.update s.bases search (s.bases search+pageUp maxPma)
        pending := Function.update s.pending i (some (search,s.next search maxPma)) }
  | .map i =>
    match s.pending i with
    | none => none
    | some (search,r) =>
      let s := { s with pending := Function.update s.pending i none }
      if s.mapped.any r.meets then some s
      else some { s with mapped := r::s.mapped, granted := (search,r)::s.granted }

/-- A host range is inside the region, a winter range outside it. -/
def InPlace (region : Span 64) : SearchType → Span 64 → Prop
  | .host,r => ∀ x ∈ r, x ∈ region
  | .winter,r => ∀ x ∈ r, x ∉ region

/-- The ranges handed out are aligned and disjoint. -/
structure Orderly {ι : Type*} (s : Placing ι) : Prop where
  aligned : ∀ g ∈ s.granted, g.2.addr.toNat % 4096 = 0
  apart : s.granted.Pairwise fun g h => ∀ x ∈ g.2, x ∉ h.2

/-- They are also on their side of the boundary. -/
structure Placement {ι : Type*} (region : Span 64) (s : Placing ι) : Prop extends Orderly s where
  inPlace : ∀ g ∈ s.granted, InPlace region g.1 g.2

/-- The calls that the events make, in the order in which they move the cursors. -/
def calls {ι : Type*} (es : List (PlaceEvent ι)) : List (SearchType × Usize) :=
  es.filterMap fun
    | .take _ search maxPma => some (search,maxPma)
    | .map _ => none

/-- The bytes that the calls of a kind ask for, each call rounded up to pages. -/
def total (search : SearchType) (cs : List (SearchType × Usize)) : ℕ :=
  (cs.map fun c => if c.1 = search then (pageUp c.2).toNat else 0).sum

/-- The host calls ask for no more than the region, the winter calls for no more than there is between
their base and the region. -/
def SizesFit (vaddrEnd rand : Usize) (cs : List (SearchType × Usize)) : Prop :=
  total .host cs ≤ nativeRegionSize.toNat ∧
    (total .winter cs = 0 ∨ liliumBaseAddr rand ∉ nativeRegion vaddrEnd ∧
      total .winter cs ≤ (nativeRegionBase vaddrEnd-liliumBaseAddr rand).toNat)

instance (vaddrEnd rand : Usize) (cs : List (SearchType × Usize)) :
    Decidable (SizesFit vaddrEnd rand cs) := inferInstanceAs (Decidable (_ ∧ (_ ∨ _ ∧ _)))

lemma inside_iff {r region : Span 64} : (∀ x ∈ r, x ∈ region) ↔
    r.len.toNat = 0 ∨ (r.addr-region.addr).toNat+r.len.toNat ≤ region.len.toNat := by
  have hregion := region.len.isLt
  have hsplit : ∀ x, x-region.addr = (r.addr-region.addr)+(x-r.addr) := by
    intro x
    rw [add_comm,sub_add_sub_cancel]
  constructor
  · intro h
    by_contra hout
    obtain ⟨hlen,hlong⟩ := not_or.mp hout
    have hstart := h r.addr (by rw [Span.mem_iff]; simp; omega)
    rw [Span.mem_iff] at hstart
    -- the first address of the range past the region
    let n := region.len.toNat-(r.addr-region.addr).toNat
    have hn : (BitVec.ofNat 64 n).toNat = n := by
      rw [BitVec.toNat_ofNat]
      exact Nat.mod_eq_of_lt (by omega)
    have hdist : r.addr+BitVec.ofNat 64 n-r.addr = BitVec.ofNat 64 n := by
      rw [add_sub_cancel_left]
    have hpast := h (r.addr+BitVec.ofNat 64 n) (by rw [Span.mem_iff,hdist,hn]; omega)
    rw [Span.mem_iff,hsplit,hdist,BitVec.toNat_add,hn,Nat.mod_eq_of_lt (by omega)] at hpast
    omega
  · rintro (hlen | hfit) x hx
    · rw [Span.mem_iff] at hx
      omega
    · rw [Span.mem_iff] at hx ⊢
      rw [hsplit,BitVec.toNat_add]
      exact (Nat.mod_le _ _).trans_lt (by omega)

lemma outside_iff {r region : Span 64} : (∀ x ∈ r, x ∉ region) ↔ r.meets region = false := by
  rw [← Bool.not_eq_true,Span.meets_iff,not_exists]
  exact forall_congr' fun x => by rw [not_and]

section Sizes

variable (region : Span 64) {n : ℕ} (len : Usize)

/-- A host range `n` bytes into the region. -/
lemma inPlace_host_iff (hn : n ≤ region.len.toNat) :
    InPlace region .host ⟨region.addr+BitVec.ofNat 64 n,len⟩ ↔
      n+len.toNat ≤ region.len.toNat := by
  have hoff : (region.addr+BitVec.ofNat 64 n-region.addr).toNat = n := by
    have := region.len.isLt
    rw [add_sub_cancel_left,BitVec.toNat_ofNat]
    exact Nat.mod_eq_of_lt (by omega)
  simp only [InPlace,inside_iff,hoff]
  omega

/-- A winter range `n` bytes above a base from which the cursor has not come to the region. -/
lemma inPlace_winter_iff (base : Usize) (hregion : 0 < region.len.toNat)
    (hn : n = 0 ∨ base ∉ region ∧ n ≤ (region.addr-base).toNat) :
    InPlace region .winter ⟨base+BitVec.ofNat 64 n,len⟩ ↔
      n+len.toNat = 0 ∨ base ∉ region ∧ n+len.toNat ≤ (region.addr-base).toNat := by
  have hdist := (region.addr-base).isLt
  have hleft : (region.addr-(base+BitVec.ofNat 64 n)).toNat = (region.addr-base).toNat-n := by
    have hle : n ≤ (region.addr-base).toNat := by omega
    rw [← BitVec.sub_sub,BitVec.toNat_sub_of_le,BitVec.toNat_ofNat,Nat.mod_eq_of_lt (by omega)]
    rw [BitVec.le_def,BitVec.toNat_ofNat,Nat.mod_eq_of_lt (by omega)]
    exact hle
  -- as long as the cursor is below the region, it is as far outside as its base or farther
  have hout : n < (region.addr-base).toNat →
      (base+BitVec.ofNat 64 n-region.addr).toNat = (base-region.addr).toNat+n := by
    intro hlt
    bv_omega
  rw [InPlace,outside_iff,Span.meets_eq_false_iff hregion,hleft]
  simp only [Span.mem_iff] at hn ⊢
  by_cases hlt : n < (region.addr-base).toNat
  · rw [hout hlt]
    omega
  · omega

end Sizes

section Totals

variable {vaddrEnd rand : Usize} {cs ds : List (SearchType × Usize)} {c : SearchType × Usize}

lemma total_append (cs ds : List (SearchType × Usize)) (search : SearchType) :
    total search (cs++ds) = total search cs+total search ds := by
  rw [total,List.map_append,List.sum_append]
  rfl

lemma total_singleton (search : SearchType) :
    total search [c] = if c.1 = search then (pageUp c.2).toNat else 0 := by
  simp [total]

lemma SizesFit.left (h : SizesFit vaddrEnd rand (cs++ds)) : SizesFit vaddrEnd rand cs := by
  unfold SizesFit at h ⊢
  rw [total_append,total_append] at h
  refine ⟨by omega,h.2.imp (fun hzero => by omega) fun hw => ⟨hw.1,by omega⟩⟩

/-- The range that a call takes when these were made before it. -/
def rangeAfter (vaddrEnd rand : Usize) (cs : List (SearchType × Usize)) (c : SearchType × Usize) :
    Span 64 :=
  ⟨startBase vaddrEnd rand c.1+BitVec.ofNat 64 (total c.1 cs),pageUp c.2⟩

/-- As long as the calls fit, the next one fits exactly when its range is in place. -/
lemma inPlace_rangeAfter (h : SizesFit vaddrEnd rand cs) :
    InPlace (nativeRegion vaddrEnd) c.1 (rangeAfter vaddrEnd rand cs c) ↔
      SizesFit vaddrEnd rand (cs++[c]) := by
  obtain ⟨hhost,hwinter⟩ := h
  obtain ⟨search,maxPma⟩ := c
  unfold SizesFit
  simp only [total_append,total_singleton]
  cases search with
  | host =>
    have hfits := inPlace_host_iff (nativeRegion vaddrEnd) (pageUp maxPma) hhost
    simp only [reduceCtorEq,if_false,if_true,Nat.add_zero]
    exact ⟨fun hin => ⟨hfits.mp hin,hwinter⟩,fun hall => hfits.mpr hall.1⟩
  | winter =>
    have hsize : 0 < nativeRegionSize.toNat := by decide
    have hfits := inPlace_winter_iff (nativeRegion vaddrEnd) (pageUp maxPma) (liliumBaseAddr rand)
      hsize hwinter
    simp only [reduceCtorEq,if_false,if_true,Nat.add_zero]
    exact ⟨fun hin => ⟨hhost,hfits.mp hin⟩,fun hall => hfits.mpr hall.2⟩

/-- Calls that do not fit have a first one among them. -/
lemma exists_first_unfit (h : ¬ SizesFit vaddrEnd rand cs) :
    ∃ before c after, cs = before++c::after ∧ SizesFit vaddrEnd rand before ∧
      ¬ SizesFit vaddrEnd rand (before++[c]) := by
  induction cs using List.reverseRecOn with
  | nil => exact absurd ⟨Nat.zero_le _,.inl rfl⟩ h
  | append_singleton cs c ih =>
    by_cases hcs : SizesFit vaddrEnd rand cs
    · exact ⟨cs,c,[],rfl,hcs,h⟩
    · obtain ⟨before,d,after,rfl,hbefore,hd⟩ := ih hcs
      exact ⟨before,d,after++[c],by simp,hbefore,hd⟩

end Totals

section Aligned

lemma pageUp_mod (v : Usize) : (pageUp v).toNat % 4096 = 0 := by
  change (Align.roundDown (v+(4096#64-1#64)) 4096#64).toNat % 4096 = 0
  rw [Align.roundDown_toNat page_pow2]
  exact Nat.mul_mod_left _ _

lemma nativeRegionBase_mod (vaddrEnd : Usize) : (nativeRegionBase vaddrEnd).toNat % 4096 = 0 := by
  have hsize : nativeRegionSize.toNat = 4096*262144 := by decide
  have hup := pageUp_mod vaddrEnd
  rw [nativeRegionBase,BitVec.toNat_sub,hsize]
  omega

lemma liliumBaseAddr_mod (rand : Usize) : (liliumBaseAddr rand).toNat % 4096 = 0 := by
  have hmask : ((rand &&& slideMask) &&& 4095#64).toNat = 0 := by
    rw [BitVec.and_assoc,show slideMask &&& 4095#64 = 0#64 by decide,BitVec.and_zero]
    rfl
  rw [pageOffset_toNat] at hmask
  have hbase : (4096#64*4096#64).toNat = 4096*4096 := by decide
  rw [liliumBaseAddr,BitVec.toNat_add,hbase]
  omega

end Aligned

section Steps

variable {ι : Type*} {s t : Placing ι} {region : Span 64}

/-- What is known of every state, whatever ranges were asked for. -/
structure Tracked (s : Placing ι) : Prop extends Orderly s where
  bases : ∀ search, (s.bases search).toNat % 4096 = 0
  taken : ∀ i p, s.pending i = some p → p.2.addr.toNat % 4096 = 0
  known : ∀ g ∈ s.granted, g.2 ∈ s.mapped

lemma initial_tracked (vaddrEnd rand : Usize) (mapped : List (Span 64)) :
    Tracked (Placing.initial (ι := ι) vaddrEnd rand mapped) := by
  refine ⟨⟨by simp [Placing.initial],by simp [Placing.initial]⟩,fun search => ?_,nofun,
    by simp [Placing.initial]⟩
  cases search with
  | host => exact nativeRegionBase_mod vaddrEnd
  | winter => exact liliumBaseAddr_mod rand

/-- A range not refused is disjoint from every range handed out before. -/
lemma Tracked.apart_of_free (h : Tracked s) {r : Span 64} (hfree : s.mapped.any r.meets = false) :
    ∀ g ∈ s.granted, ∀ x ∈ r, x ∉ g.2 := by
  intro g hg x hx hxg
  rw [List.any_eq_false] at hfree
  exact hfree g.2 (h.known g hg) (Span.meets_iff.mpr ⟨x,hx,hxg⟩)

variable [DecidableEq ι]

/-- What a step can do. -/
lemma placeStep_cases {e : PlaceEvent ι} (h : placeStep s e = some t) :
    (∃ i search maxPma, e = .take i search maxPma ∧ t = { s with
        bases := Function.update s.bases search (s.bases search+pageUp maxPma)
        pending := Function.update s.pending i (some (search,s.next search maxPma)) }) ∨
      (∃ i p, e = .map i ∧ s.pending i = some p ∧ s.mapped.any p.2.meets = true ∧
        t = { s with pending := Function.update s.pending i none }) ∨
      ∃ i p, e = .map i ∧ s.pending i = some p ∧ s.mapped.any p.2.meets = false ∧
        t = ⟨s.bases,Function.update s.pending i none,p.2::s.mapped,p::s.granted⟩ := by
  cases e with
  | take i search maxPma =>
    simp only [placeStep] at h
    split at h
    · cases h
    · exact .inl ⟨i,search,maxPma,rfl,(Option.some.inj h).symm⟩
  | map i =>
    simp only [placeStep] at h
    split at h
    · cases h
    · next search r hp =>
      split at h
      · next hmeets => exact .inr (.inl ⟨i,_,rfl,hp,hmeets,(Option.some.inj h).symm⟩)
      · next hmeets =>
        exact .inr (.inr ⟨i,_,rfl,hp,by simpa using hmeets,(Option.some.inj h).symm⟩)

lemma pending_of_cleared {i j : ι} {p : SearchType × Span 64}
    (h : Function.update s.pending i none j = some p) : s.pending j = some p := by
  by_cases hij : j = i
  · subst hij
    simp at h
  · rwa [Function.update_of_ne hij] at h

lemma pending_of_taken {i j : ι} {p q : SearchType × Span 64}
    (h : Function.update s.pending i (some p) j = some q) : p = q ∨ s.pending j = some q := by
  by_cases hij : j = i
  · rw [hij,Function.update_self,Option.some.injEq] at h
    exact .inl h
  · rw [Function.update_of_ne hij] at h
    exact .inr h

lemma tracked_step {e : PlaceEvent ι} (h : Tracked s) (ht : placeStep s e = some t) : Tracked t := by
  obtain ⟨i,search,maxPma,-,rfl⟩ | ⟨i,p,-,-,-,rfl⟩ | ⟨i,p,-,hp,hfree,rfl⟩ := placeStep_cases ht
  · refine ⟨⟨h.aligned,h.apart⟩,fun b => ?_,fun j q hq => ?_,h.known⟩
    · change (Function.update s.bases search _ b).toNat % 4096 = 0
      by_cases hb : b = search
      · have hbase := h.bases search
        have hup := pageUp_mod maxPma
        rw [hb,Function.update_self,BitVec.toNat_add]
        omega
      · rw [Function.update_of_ne hb]
        exact h.bases b
    · obtain rfl | hq := pending_of_taken hq
      · exact h.bases search
      · exact h.taken j q hq
  · exact ⟨⟨h.aligned,h.apart⟩,h.bases,fun j q hq => h.taken j q (pending_of_cleared hq),h.known⟩
  · refine ⟨⟨?_,?_⟩,h.bases,fun j q hq => h.taken j q (pending_of_cleared hq),?_⟩
    · intro g hg
      cases List.mem_cons.mp hg with
      | inl heq => rw [heq]; exact h.taken i p hp
      | inr hmem => exact h.aligned g hmem
    · exact List.pairwise_cons.mpr ⟨h.apart_of_free hfree,h.apart⟩
    · intro g hg
      cases List.mem_cons.mp hg with
      | inl heq => rw [heq]; exact List.mem_cons_self
      | inr hmem => exact List.mem_cons_of_mem _ (h.known g hmem)

/-- The state that events with these calls lead to, as long as the calls fit. -/
structure Following (vaddrEnd rand : Usize) (cs : List (SearchType × Usize)) (s : Placing ι) :
    Prop where
  tracked : Tracked s
  bases : ∀ search, s.bases search =
    startBase vaddrEnd rand search+BitVec.ofNat 64 (total search cs)
  granted : ∀ g ∈ s.granted, InPlace (nativeRegion vaddrEnd) g.1 g.2
  taken : ∀ i p, s.pending i = some p → InPlace (nativeRegion vaddrEnd) p.1 p.2

section Histories

variable {vaddrEnd rand : Usize} {cs : List (SearchType × Usize)}

omit [DecidableEq ι] in
lemma initial_following (mapped : List (Span 64)) :
    Following vaddrEnd rand [] (Placing.initial (ι := ι) vaddrEnd rand mapped) :=
  ⟨initial_tracked vaddrEnd rand mapped,fun _ => (BitVec.add_zero _).symm,
    fun _ hg => absurd hg List.not_mem_nil,nofun⟩

omit [DecidableEq ι] in
lemma Following.next_eq (h : Following vaddrEnd rand cs s) (search : SearchType) (maxPma : Usize) :
    s.next search maxPma = rangeAfter vaddrEnd rand cs (search,maxPma) := by
  rw [Placing.next,h.bases]
  rfl

omit [DecidableEq ι] in
lemma bases_taken (search : SearchType) (maxPma : Usize)
    (h : ∀ b, s.bases b = startBase vaddrEnd rand b+BitVec.ofNat 64 (total b cs)) (b : SearchType) :
    Function.update s.bases search (s.bases search+pageUp maxPma) b =
      startBase vaddrEnd rand b+BitVec.ofNat 64 (total b (cs++[(search,maxPma)])) := by
  rw [total_append,total_singleton]
  by_cases hb : search = b
  · subst hb
    rw [Function.update_self,h,if_pos rfl,BitVec.ofNat_add,BitVec.ofNat_toNat,BitVec.setWidth_eq,
      BitVec.add_assoc]
  · rw [Function.update_of_ne (Ne.symm hb),h,if_neg hb,Nat.add_zero]

lemma following_step {e : PlaceEvent ι} (h : Following vaddrEnd rand cs s)
    (hfit : SizesFit vaddrEnd rand (cs++calls [e])) (ht : placeStep s e = some t) :
    Following vaddrEnd rand (cs++calls [e]) t := by
  have htracked := tracked_step h.tracked ht
  obtain ⟨i,search,maxPma,rfl,rfl⟩ | ⟨i,p,rfl,-,-,rfl⟩ | ⟨i,p,rfl,hp,-,rfl⟩ := placeStep_cases ht
  · refine ⟨htracked,bases_taken search maxPma h.bases,h.granted,fun j q hq => ?_⟩
    obtain rfl | hq := pending_of_taken hq
    · rw [h.next_eq]
      exact (inPlace_rangeAfter hfit.left).mpr hfit
    · exact h.taken j q hq
  · change Following vaddrEnd rand (cs++[]) _
    rw [List.append_nil]
    exact ⟨htracked,h.bases,h.granted,fun j q hq => h.taken j q (pending_of_cleared hq)⟩
  · change Following vaddrEnd rand (cs++[]) _
    rw [List.append_nil]
    refine ⟨htracked,h.bases,fun g hg => ?_,fun j q hq => h.taken j q (pending_of_cleared hq)⟩
    cases List.mem_cons.mp hg with
    | inl heq => rw [heq]; exact h.taken i p hp
    | inr hmem => exact h.granted g hmem

/-- Events whose calls fit keep the placement. -/
lemma always_of_sizesFit {es : List (PlaceEvent ι)} (h : Following vaddrEnd rand cs s)
    (hfit : SizesFit vaddrEnd rand (cs++calls es)) :
    Always placeStep (Placement (nativeRegion vaddrEnd)) s es := by
  induction es generalizing s cs with
  | nil => exact ⟨h.tracked.toOrderly,h.granted⟩
  | cons e es ih =>
    have hcalls : calls (e::es) = calls [e]++calls es := by
      cases e <;> rfl
    rw [hcalls,← List.append_assoc] at hfit
    exact ⟨⟨h.tracked.toOrderly,h.granted⟩,fun t ht => ih (following_step h hfit.left ht) hfit⟩

end Histories

/-- A range in the wrong place breaks the placement when it is mapped where nothing is. -/
lemma not_always_map {i : ι} {p : SearchType × Span 64} {es : List (PlaceEvent ι)}
    (hp : s.pending i = some p) (hout : ¬ InPlace region p.1 p.2)
    (hfree : s.mapped.any p.2.meets = false) :
    ¬ Always placeStep (Placement region) s (.map i::es) := by
  intro h
  have hgrant : placeStep s (.map i) =
      some ⟨s.bases,Function.update s.pending i none,p.2::s.mapped,p::s.granted⟩ := by
    simp only [placeStep,hp,hfree]
    rfl
  exact hout ((h.2 _ hgrant).head.inPlace p List.mem_cons_self)

end Steps

section Threads

/-- The calls made by one thread each, none of which comes to its `mmap`. -/
def takes : ℕ → List (SearchType × Usize) → List (PlaceEvent ℕ)
  | _,[] => []
  | n,c::cs => .take n c.1 c.2::takes (n+1) cs

lemma calls_takes (n : ℕ) (cs : List (SearchType × Usize)) : calls (takes n cs) = cs := by
  induction cs generalizing n with
  | nil => rfl
  | cons c cs ih =>
    change (c.1,c.2)::calls (takes (n+1) cs) = c::cs
    rw [ih]

lemma calls_append {ι : Type*} (es fs : List (PlaceEvent ι)) : calls (es++fs) = calls es++calls fs :=
  List.filterMap_append

/-- The calls only move the cursors. -/
lemma run_takes {s : Placing ℕ} {n : ℕ} (cs : List (SearchType × Usize))
    (hidle : ∀ i, n ≤ i → s.pending i = none) :
    ∃ t, run placeStep s (takes n cs) = some t ∧ t.mapped = s.mapped ∧
      (∀ i, n+cs.length ≤ i → t.pending i = none) ∧
      ∀ search, t.bases search = s.bases search+BitVec.ofNat 64 (total search cs) := by
  induction cs generalizing s n with
  | nil => exact ⟨s,rfl,rfl,hidle,fun _ => (BitVec.add_zero _).symm⟩
  | cons c cs ih =>
    let u : Placing ℕ := { s with
      bases := Function.update s.bases c.1 (s.bases c.1+pageUp c.2)
      pending := Function.update s.pending n (some (c.1,s.next c.1 c.2)) }
    have hstep : placeStep s (.take n c.1 c.2) = some u := by
      simp only [placeStep,hidle n le_rfl]
      rfl
    have hu : ∀ i, n+1 ≤ i → u.pending i = none := fun i hi =>
      (Function.update_of_ne (by omega) _ _).trans (hidle i (by omega))
    obtain ⟨t,hrun,hmapped,hpending,hbases⟩ := ih hu
    refine ⟨t,run_cons_of hstep hrun,hmapped,fun i hi => hpending i ?_,fun search => ?_⟩
    · rw [List.length_cons] at hi
      omega
    · have hcons : total search (c::cs) = total search [c]+total search cs :=
        total_append [c] cs search
      rw [hbases,hcons,total_singleton,BitVec.ofNat_add,← BitVec.add_assoc]
      congr 1
      change Function.update s.bases c.1 (s.bases c.1+pageUp c.2) search = _
      by_cases hc : c.1 = search
      · rw [← hc,Function.update_self,if_pos rfl,BitVec.ofNat_toNat,BitVec.setWidth_eq]
      · rw [Function.update_of_ne (Ne.symm hc),if_neg hc]
        exact (BitVec.add_zero _).symm

/-- When the calls do not fit, the first that does not may find its range free. -/
lemma exists_misplaced {vaddrEnd rand : Usize} {cs : List (SearchType × Usize)}
    (h : ¬ SizesFit vaddrEnd rand cs) :
    ∃ es : List (PlaceEvent ℕ), calls es = cs ∧
      ¬ Always placeStep (Placement (nativeRegion vaddrEnd)) (.initial vaddrEnd rand []) es := by
  obtain ⟨before,c,after,rfl,hbefore,hc⟩ := exists_first_unfit h
  let k := before.length
  refine ⟨takes 0 before++.take k c.1 c.2::.map k::takes (k+1) after,?_,fun hall => ?_⟩
  · rw [calls_append,calls_takes]
    change before++c::calls (takes (k+1) after) = _
    rw [calls_takes]
  · obtain ⟨t,hrun,hmapped,hidle,hbases⟩ := run_takes (s := .initial vaddrEnd rand []) (n := 0)
      before fun _ _ => rfl
    have hk : t.pending k = none := hidle k (by omega)
    have hnext : t.next c.1 c.2 = rangeAfter vaddrEnd rand before c := by
      rw [Placing.next,hbases]
      rfl
    have hstep : placeStep t (.take k c.1 c.2) = some { t with
        bases := Function.update t.bases c.1 (t.bases c.1+pageUp c.2)
        pending := Function.update t.pending k (some (c.1,t.next c.1 c.2)) } := by
      simp only [placeStep,hk]
    refine not_always_map (p := (c.1,t.next c.1 c.2)) (Function.update_self _ _ _) ?_ ?_
      ((hall.append hrun).2 _ hstep)
    · rw [hnext,inPlace_rangeAfter hbefore]
      exact hc
    · change t.mapped.any _ = false
      rw [hmapped]
      rfl

end Threads

/-- `alloc_base_addr` moves the cursor whatever the kernel answers. -/
lemma allocBaseAddr_outcome (k : Kernel) (search : SearchType) (maxPma : Usize) (p : Proc) :
    (allocBaseAddr k search maxPma p).2.bases =
        Function.update p.bases search (p.bases search+pageUp maxPma) ∧
      (allocBaseAddr k search maxPma p).1 =
        if k.ok p.calls then .ok (p.bases search) else .error (.error .allocError) := by
  let p₁ := { p with bases := Function.update p.bases search (p.bases search+pageUp maxPma) }
  change ((issue k .mmap (p.bases search) (pageUp maxPma) (Prot.read ||| Prot.write) .allocError >>=
    fun _ => _) p₁).2.bases = _ ∧ ((issue k .mmap (p.bases search) (pageUp maxPma)
      (Prot.read ||| Prot.write) .allocError >>= fun _ => _) p₁).1 = _
  cases hk : k.ok p.calls with
  | true =>
    have hissue : issue k .mmap (p.bases search) (pageUp maxPma) (Prot.read ||| Prot.write)
        .allocError p₁ = (.ok (),{ p₁ with
          calls := p.calls+1
          log := p.log++[⟨.mmap,p.bases search,pageUp maxPma,Prot.read ||| Prot.write,true⟩] }) := by
      simp [issue,p₁,hk]
    rw [Task.bind_ok hissue]
    exact ⟨rfl,rfl⟩
  | false =>
    have hissue : issue k .mmap (p.bases search) (pageUp maxPma) (Prot.read ||| Prot.write)
        .allocError p₁ = (.error (.error .allocError),{ p₁ with
          calls := p.calls+1
          log := p.log++[⟨.mmap,p.bases search,pageUp maxPma,Prot.read ||| Prot.write,false⟩] }) := by
      simp [issue,p₁,hk]
    rw [Task.bind_stop hissue]
    exact ⟨rfl,rfl⟩

/-- A call that is not interrupted, with the kernel answering as the mappings say, is the loader's
`alloc_base_addr`. -/
theorem allocBaseAddr_placed {ι : Type*} [DecidableEq ι] {s : Placing ι} {i : ι} {k : Kernel}
    {p : Proc} (hidle : s.pending i = none) (hbases : p.bases = s.bases) (search : SearchType)
    (maxPma : Usize) (hk : k.ok p.calls = !s.mapped.any (s.next search maxPma).meets) :
    ∃ t, run placeStep s [.take i search maxPma,.map i] = some t ∧
      (allocBaseAddr k search maxPma p).2.bases = t.bases ∧
      ((allocBaseAddr k search maxPma p).1 = .ok (s.next search maxPma).addr ∧
          t.granted = (search,s.next search maxPma)::s.granted ∨
        (allocBaseAddr k search maxPma p).1 = .error (.error .allocError) ∧
          t.granted = s.granted) := by
  obtain ⟨hafter,hanswer⟩ := allocBaseAddr_outcome k search maxPma p
  rw [hafter,hanswer,hk,hbases]
  simp only [run_cons,placeStep,hidle,Option.bind_some,Function.update_self,run_nil]
  cases s.mapped.any (s.next search maxPma).meets with
  | true => exact ⟨_,rfl,rfl,.inr ⟨rfl,rfl⟩⟩
  | false => exact ⟨_,rfl,rfl,.inl ⟨rfl,rfl⟩⟩

/-- Alignment and disjointness hold in every run. The boundary holds in all runs with given calls,
whatever is mapped and however the threads interleave, exactly when the calls fit. -/
theorem placement_iff_sizesFit (vaddrEnd rand : Usize) (cs : List (SearchType × Usize)) :
    (∀ (mapped : List (Span 64)) (es : List (PlaceEvent ℕ)),
        Always placeStep Orderly (.initial vaddrEnd rand mapped) es) ∧
      ((∀ (mapped : List (Span 64)) (es : List (PlaceEvent ℕ)), calls es = cs →
          Always placeStep (Placement (nativeRegion vaddrEnd)) (.initial vaddrEnd rand mapped) es) ↔
        SizesFit vaddrEnd rand cs) := by
  refine ⟨fun mapped es => ?_,fun h => ?_,fun h mapped es hes => ?_⟩
  · apply always_of_guarded (I := Tracked) (C := fun _ _ => True)
    · exact fun s e t hs _ ht => tracked_step hs ht
    · exact fun s hs => hs.toOrderly
    · exact initial_tracked vaddrEnd rand mapped
    · exact guarded_of_mem (fun _ _ _ => trivial) _
  · by_contra hfit
    obtain ⟨es,hes,hbreaks⟩ := exists_misplaced hfit
    exact hbreaks (h [] es hes)
  · exact always_of_sizesFit (initial_following mapped) (by rw [List.nil_append,hes]; exact h)

/-- The loader's own image at the end of the region, mapped from the start. -/
def loaderImage : Span 64 := ⟨0x7F003FF00000#64,0x100000#64⟩

/-- A module of each kind and a third that fills the rest of the region, which the loader's image
refuses. -/
theorem placement_iff_sizesFit_both :
    SizesFit 0x7F003FFFF123#64 0x12345678#64
        [(.host,0x2345#64),(.winter,0x5000#64),(.host,0x3FFFD000#64)] ∧
      Always placeStep (Placement (nativeRegion 0x7F003FFFF123#64))
        (.initial 0x7F003FFFF123#64 0x12345678#64 [loaderImage])
        [.take 0 .host 0x2345#64,.take 1 .winter 0x5000#64,.map 1,.map 0,
          .take 1 .host 0x3FFFD000#64,.map 1] := by
  have hfit : SizesFit 0x7F003FFFF123#64 0x12345678#64
      [(.host,0x2345#64),(.winter,0x5000#64),(.host,0x3FFFD000#64)] := by decide
  exact ⟨hfit,(placement_iff_sizesFit _ _ _).2.mpr hfit _ _ rfl⟩

/-- A module of the size of the region is refused, but the cursor has moved past the end of the
region and the next one lands there; winter modules can be pushed into the region the same way. -/
theorem cursor_leaves_region :
    ¬ Always placeStep (Placement (nativeRegion 0x7F003FFFF123#64))
        (.initial 0x7F003FFFF123#64 0#64 [loaderImage])
        [.take () .host 0x40000000#64,.map (),.take () .host 0x1000#64,.map ()] ∧
      ¬ Always placeStep (Placement (nativeRegion 0x7F003FFFF123#64))
        (.initial 0x7F003FFFF123#64 0#64 [loaderImage])
        [.take () .winter 0x7F0000000000#64,.map ()] := by
  constructor
  · intro h
    have hlast := ((h.2 _ rfl).2 _ rfl).2 _ rfl
    exact not_always_map (p := (.host,⟨0x7F0040000000#64,0x1000#64⟩)) (by decide)
      (by rw [InPlace,inside_iff]; decide) (by decide) hlast
  · intro h
    have hlast := h.2 _ rfl
    exact not_always_map (p := (.winter,⟨0x1000000#64,0x7F0000000000#64⟩)) (by decide)
      (by rw [InPlace,outside_iff]; decide) (by decide) hlast

end WinterLily.Loader
