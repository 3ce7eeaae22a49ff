import WinterLily.Info.Request
import WinterLily.Syscall.Registry

/-! The registry of a running process: the tables of the six subsystems that `__rust_entry`
initialises, built by `insert_elems` of `helpers.rs`, and threads that load further subsystems while
the guest makes calls. `register_subsys` is taken apart into its atomic accesses here. -/
namespace WinterLily.Syscall
open WinterLily.Transition WinterLily.Info

section InsertElems

variable {T : Type*} {n : ℕ}

/-- The loop of `insert_elems`; `none` is an index out of range. -/
def insertLoop (base : Fin n → T) : List (ℕ × T) → Option (Fin n → T)
  | [] => some base
  | (idx,val)::updates =>
    if h : idx < n then insertLoop (Function.update base ⟨idx,h⟩ val) updates else none

def insertElems (base : Fin n → T) (updates : List (ℕ × T)) : Option (Fin n → T) :=
  if updates.length ≤ n then insertLoop base updates else none

/-- An element is that of the last update of its index. -/
lemma insertLoop_apply {base t : Fin n → T} {updates : List (ℕ × T)}
    (h : insertLoop base updates = some t) (j : Fin n) :
    t j = ((updates.reverse.find? fun u => u.1 == j.val).map Prod.snd).getD (base j) := by
  induction updates generalizing base with
  | nil =>
    cases h
    rfl
  | cons u updates ih =>
    obtain ⟨idx,val⟩ := u
    rw [insertLoop] at h
    split_ifs at h with hidx
    rw [ih h,List.reverse_cons,List.find?_append]
    cases updates.reverse.find? fun u => u.1 == j.val with
    | some v => rfl
    | none =>
      by_cases hj : idx = j.val
      · subst hj
        simp
      · have hne : j ≠ ⟨idx,hidx⟩ := fun hc => hj (by rw [hc])
        simp [Function.update_of_ne hne,hj]

lemma insertElems_isSome {base : Fin n → T} {updates : List (ℕ × T)}
    (hlen : updates.length ≤ n) (hidx : ∀ u ∈ updates, u.1 < n) :
    (insertElems base updates).isSome = true := by
  rw [insertElems,if_pos hlen]
  clear hlen
  induction updates generalizing base with
  | nil => rfl
  | cons u updates ih =>
    rw [insertLoop,dif_pos (hidx u (by simp))]
    exact ih fun v hv => hidx v (by simp [hv])

end InsertElems

/-- The functions that the tables of the six subsystems have. -/
inductive Handler
  | unmanagedException | getSystemInfo | ioWrite | exitProcess
  | createMapping | changeMappingAttributes | removeMapping | resizeMapping
  deriving DecidableEq, Repr

/-- The two numbers of `lilium_sys::sys::sysno::base`. -/
structure Sysno where
  unmanagedException : Fin 4096
  getSystemInfo : Fin 4096
  ne : unmanagedException ≠ getSystemInfo

/-- The updates of a table. -/
abbrev Entries := List (ℕ × Handler)

def baseEntries (N : Sysno) : Entries :=
  [(N.unmanagedException,.unmanagedException),(N.getSystemInfo,.getSystemInfo)]

def ioEntries : Entries := [(1,.ioWrite)]

def processEntries : Entries :=
  [(0,.exitProcess),(0x30,.createMapping),(0x31,.changeMappingAttributes),(0x32,.removeMapping),
    (0x33,.resizeMapping)]

/-- The updates fit the array, as the compiler checks. -/
def Entries.Fit (es : Entries) : Prop := es.length ≤ 4096 ∧ ∀ e ∈ es, e.1 < 4096

section Tables

variable {α : Type*} (f : Handler → α)

/-- `SYSCALLS`, with `f` for the code of a function. -/
def syscalls (es : Entries) (h : es.Fit) : Table α :=
  (insertElems (fun _ => none) (es.map fun e => (e.1,some (f e.2)))).get
    (insertElems_isSome (by rw [List.length_map]; exact h.1) fun u hu => by
      obtain ⟨e,he,rfl⟩ := List.mem_map.mp hu
      exact h.2 e he)

lemma syscalls_eq_some_iff {es : Entries} (h : es.Fit) (hnd : (es.map Prod.fst).Nodup)
    (j : Fin 4096) (a : α) : syscalls f es h j = some a ↔ ∃ e ∈ es, e.1 = j.val ∧ f e.2 = a := by
  have hsome : insertElems (fun _ => none) (es.map fun e => (e.1,some (f e.2))) =
      some (syscalls f es h) := (Option.some_get _).symm
  rw [insertElems,if_pos (by rw [List.length_map]; exact h.1)] at hsome
  rw [insertLoop_apply hsome j]
  constructor
  · intro ha
    cases hfind : (es.map fun e => (e.1,some (f e.2))).reverse.find? fun u => u.1 == j.val with
    | none => simp [hfind] at ha
    | some u =>
      have hmem := List.mem_of_find?_eq_some hfind
      have hidx := List.find?_some hfind
      rw [List.mem_reverse,List.mem_map] at hmem
      obtain ⟨e,he,rfl⟩ := hmem
      rw [hfind] at ha
      exact ⟨e,he,by simpa using hidx,by simpa using ha⟩
  · rintro ⟨e,he,hidx,rfl⟩
    have hmem : (e.1,some (f e.2)) ∈ (es.map fun e => (e.1,some (f e.2))).reverse := by
      rw [List.mem_reverse,List.mem_map]
      exact ⟨e,he,rfl⟩
    have hfound : ((es.map fun e => (e.1,some (f e.2))).reverse.find?
        fun u => u.1 == j.val).isSome = true :=
      List.find?_isSome.mpr ⟨_,hmem,by simpa using hidx⟩
    obtain ⟨u,hfind⟩ := Option.isSome_iff_exists.mp hfound
    have hu := List.find?_some hfind
    have hmem' := List.mem_of_find?_eq_some hfind
    rw [List.mem_reverse,List.mem_map] at hmem'
    obtain ⟨e',he',rfl⟩ := hmem'
    -- No index is updated twice.
    have heq : e' = e := List.inj_on_of_nodup_map hnd he' he (by simpa [hidx] using hu)
    rw [hfind,heq]
    rfl

end Tables

lemma baseEntries_fit (N : Sysno) : (baseEntries N).Fit := by
  refine ⟨show 2 ≤ 4096 by decide,fun e he => ?_⟩
  simp only [baseEntries,List.mem_cons,List.not_mem_nil,or_false] at he
  rcases he with rfl | rfl
  · exact N.unmanagedException.isLt
  · exact N.getSystemInfo.isLt

lemma ioEntries_fit : ioEntries.Fit := ⟨by decide,by decide⟩

lemma processEntries_fit : processEntries.Fit := ⟨by decide,by decide⟩

lemma nil_fit : Entries.Fit [] := ⟨by decide,by simp⟩

def subsysInfo (uuid : Uuid) : SubsysInfo := ⟨uuid,0#64,128#16⟩

/-- The `init_subsystem` functions of the six subsystems, in the order that `__rust_entry` calls
them. -/
def bootCalls {α : Type*} (f : Handler → α) (N : Sysno) : List (Call α SubsysInfo) :=
  [⟨0#64,syscalls f (baseEntries N) (baseEntries_fit N),
      subsysInfo 0x9e780f9ef35f580aada0444d0c24e3ea#128⟩,
    ⟨1#64,syscalls f [] nil_fit,subsysInfo 0xf8ee43817db25c4bbdd9dad7f83412a4#128⟩,
    ⟨2#64,syscalls f ioEntries ioEntries_fit,subsysInfo 0x144e71379e855b9e8d4a8c700fb9d6bd#128⟩,
    ⟨3#64,syscalls f processEntries processEntries_fit,
      subsysInfo 0x2bf865069b4a5065ac9ead6d21027460#128⟩,
    ⟨4#64,syscalls f [] nil_fit,subsysInfo 0x630603ac38d259369083ed87a50b3453#128⟩,
    ⟨5#64,syscalls f [] nil_fit,subsysInfo 0x90bd3c96a8e15896a9f2704e98abec9f#128⟩]

/-- The calls that a guest can make of them. -/
def guestCalls (N : Sysno) : Entries :=
  baseEntries N++ioEntries.map (fun e => (0x2000+e.1,e.2))++
    processEntries.map fun e => (0x3000+e.1,e.2)

/-- How far a thread is with its `register_subsys`: it has its number, then has stored the table,
then the description. -/
inductive Loading
  | start
  | table (k : Word)
  | info (k : Word)
  | done (k : Word)
  deriving DecidableEq, Repr

structure Loaders (ι α β : Type*) where
  registry : Registry α β
  phase : ι → Loading

section Loading

variable {ι α β : Type*} [DecidableEq ι] (calls : ι → Call α β)

/-- One atomic access of thread `t`. A panic ends the process. -/
def loadStep (s : Loaders ι α β) (t : ι) : Option (Loaders ι α β) :=
  match s.phase t with
  | .start =>
    if (calls t).dynamic then
      let val := s.registry.nextDynSubsys
      if 64#64 < val then none
      else some ⟨{ s.registry with nextDynSubsys := val+1 },Function.update s.phase t (.table val)⟩
    else some { s with phase := Function.update s.phase t (.table (calls t).subsys) }
  | .table k =>
    if h : k.toNat < 64 then
      some ⟨{ s.registry with
          syscallSubsysArray := Function.update s.registry.syscallSubsysArray ⟨k.toNat,h⟩
            (some (calls t).arr) },
        Function.update s.phase t (.info k)⟩
    else none
  | .info k =>
    if h : k.toNat < 64 then
      some ⟨{ s.registry with
          subsysRegistry := Function.update s.registry.subsysRegistry ⟨k.toNat,h⟩
            (some (calls t).info) },
        Function.update s.phase t (.done k)⟩
    else none
  | .done _ => none

/-- A thread that is not interrupted does what `register` says. -/
lemma run_loadStep_alone (s : Loaders ι α β) {t : ι} (ht : s.phase t = .start) :
    (run (loadStep calls) s [t,t,t]).map Loaders.registry = s.registry.register (calls t) := by
  have hrest : ∀ (r : Registry α β) k,
      (run (loadStep calls) ⟨r,Function.update s.phase t (.table k)⟩ [t,t]).map Loaders.registry =
        r.store k (calls t) := by
    intro r k
    by_cases hk : k.toNat < 64
    · simp [run,loadStep,Registry.store,hk]
    · simp [run,loadStep,Registry.store,hk]
  rw [run_cons,loadStep,ht,Registry.register]
  dsimp only
  split_ifs with hd hval
  · rfl
  · exact hrest _ _
  · exact hrest _ _

/-- The number that a thread has. -/
def Loading.number : Loading → Option Word
  | .start => none
  | .table k | .info k | .done k => some k

/-- The thread has stored its table under `k`. -/
def Loading.Stored (p : Loading) (k : Word) : Prop := p = .info k ∨ p = .done k

/-- The call asks for a number, or stores under its own what is there already. -/
def Harmless (r : Registry α β) (c : Call α β) : Prop :=
  c.dynamic = true ∨ c.dynamic = false ∧ ∃ h : c.subsys.toNat < 64,
    c.subsys.toNat < r.nextDynSubsys.toNat ∧
    r.syscallSubsysArray ⟨_,h⟩ = some c.arr ∧ r.subsysRegistry ⟨_,h⟩ = some c.info

variable {calls}

structure LoadInv (calls : ι → Call α β) (r : Registry α β) (s : Loaders ι α β) : Prop where
  counter : r.nextDynSubsys.toNat ≤ s.registry.nextDynSubsys.toNat ∧
    s.registry.nextDynSubsys.toNat ≤ 65
  dynamic : ∀ t k, (calls t).dynamic = true → (s.phase t).number = some k →
    r.nextDynSubsys.toNat ≤ k.toNat ∧ k.toNat < s.registry.nextDynSubsys.toNat
  explicit : ∀ t k, (calls t).dynamic = false → (s.phase t).number = some k → k = (calls t).subsys
  apart : Exclusive fun t k => (calls t).dynamic = true ∧ (s.phase t).number = some k
  low : ∀ k : Fin 64, k.val < r.nextDynSubsys.toNat →
    s.registry.syscallSubsysArray k = r.syscallSubsysArray k ∧
    s.registry.subsysRegistry k = r.subsysRegistry k
  high : ∀ (k : Fin 64) arr, r.nextDynSubsys.toNat ≤ k.val →
    (s.registry.syscallSubsysArray k = some arr ↔
      ∃ t w, (calls t).dynamic = true ∧ w.toNat = k.val ∧ (s.phase t).Stored w ∧ (calls t).arr = arr)
  stored : ∀ t k, (s.phase t).Stored k → k.toNat < 64

variable {r : Registry α β} {s s' : Loaders ι α β}

/-- What one access does. -/
lemma loadStep_cases {t : ι} (h : loadStep calls s t = some s') :
    (s.phase t = .start ∧ (calls t).dynamic = true ∧ ¬ 64#64 < s.registry.nextDynSubsys ∧
      s' = ⟨{ s.registry with nextDynSubsys := s.registry.nextDynSubsys+1 },
        Function.update s.phase t (.table s.registry.nextDynSubsys)⟩) ∨
    (s.phase t = .start ∧ (calls t).dynamic = false ∧
      s' = { s with phase := Function.update s.phase t (.table (calls t).subsys) }) ∨
    (∃ k, ∃ hk : k.toNat < 64, s.phase t = .table k ∧
      s' = ⟨{ s.registry with
          syscallSubsysArray := Function.update s.registry.syscallSubsysArray ⟨k.toNat,hk⟩
            (some (calls t).arr) },Function.update s.phase t (.info k)⟩) ∨
    ∃ k, ∃ hk : k.toNat < 64, s.phase t = .info k ∧
      s' = ⟨{ s.registry with
          subsysRegistry := Function.update s.registry.subsysRegistry ⟨k.toNat,hk⟩
            (some (calls t).info) },Function.update s.phase t (.done k)⟩ := by
  unfold loadStep at h
  cases hp : s.phase t with
  | start =>
    simp only [hp] at h
    cases hd : (calls t).dynamic with
    | true =>
      rw [if_pos hd] at h
      split_ifs at h with hval
      exact .inl ⟨rfl,rfl,hval,(Option.some.inj h).symm⟩
    | false =>
      rw [if_neg (by simp [hd])] at h
      exact .inr (.inl ⟨rfl,rfl,(Option.some.inj h).symm⟩)
  | table k =>
    simp only [hp] at h
    split_ifs at h with hk
    exact .inr (.inr (.inl ⟨k,hk,rfl,(Option.some.inj h).symm⟩))
  | info k =>
    simp only [hp] at h
    split_ifs at h with hk
    exact .inr (.inr (.inr ⟨k,hk,rfl,(Option.some.inj h).symm⟩))
  | done k => simp [hp] at h

/-- A step that moves only the counter and the phase of one thread that has nothing stored. -/
lemma LoadInv.claim (h : LoadInv calls r s) {t : ι} (ht : s.phase t = .start) {k : Word}
    {reg : Registry α β} (harr : reg.syscallSubsysArray = s.registry.syscallSubsysArray)
    (hreg : reg.subsysRegistry = s.registry.subsysRegistry)
    (hle : s.registry.nextDynSubsys.toNat ≤ reg.nextDynSubsys.toNat)
    (hmax : reg.nextDynSubsys.toNat ≤ 65)
    (hdyn : (calls t).dynamic = true → k = s.registry.nextDynSubsys ∧
      k.toNat < reg.nextDynSubsys.toNat)
    (hexp : (calls t).dynamic = false → k = (calls t).subsys) :
    LoadInv calls r ⟨reg,Function.update s.phase t (.table k)⟩ := by
  have hself : ∀ k', (Function.update s.phase t (.table k) t).number = some k' → k' = k := by
    intro k' hk'
    rw [Function.update_self] at hk'
    exact (Option.some.inj hk').symm
  have hother : ∀ u, u ≠ t → Function.update s.phase t (.table k) u = s.phase u := fun u hu =>
    Function.update_of_ne hu _ _
  have hstored : ∀ u w, (Function.update s.phase t (.table k) u).Stored w ↔ (s.phase u).Stored w := by
    intro u w
    by_cases hu : u = t
    · subst hu
      rw [Function.update_self,ht]
      simp [Loading.Stored]
    · rw [hother u hu]
  refine ⟨⟨h.counter.1.trans hle,hmax⟩,fun u k' hd hk' => ?_,fun u k' hd hk' => ?_,?_,fun j hj => ?_,
    fun j arr hj => ?_,fun u w hw => h.stored u w ((hstored u w).mp hw)⟩
  · by_cases hu : u = t
    · subst hu
      obtain rfl := hself k' hk'
      obtain ⟨rfl,hlt⟩ := hdyn hd
      exact ⟨h.counter.1,hlt⟩
    · change (Function.update s.phase t (.table k) u).number = some k' at hk'
      rw [hother u hu] at hk'
      have := h.dynamic u k' hd hk'
      exact ⟨this.1,this.2.trans_le hle⟩
  · by_cases hu : u = t
    · subst hu
      obtain rfl := hself k' hk'
      exact hexp hd
    · change (Function.update s.phase t (.table k) u).number = some k' at hk'
      rw [hother u hu] at hk'
      exact h.explicit u k' hd hk'
  · refine h.apart.update t (fun u hu x hx => ?_) ?_
    · change _ ∧ (Function.update s.phase t (.table k) u).number = some x at hx
      rwa [hother u hu] at hx
    · rintro x ⟨hd,hx⟩ u - ⟨hud,hux⟩
      obtain rfl := hself x hx
      obtain ⟨rfl,-⟩ := hdyn hd
      exact absurd (h.dynamic u _ hud hux).2 (by omega)
  · rw [harr,hreg]
    exact h.low j hj
  · rw [harr,h.high j arr hj]
    simp only [hstored]

/-- A thread that goes on keeps its number. -/
lemma number_update {t : ι} {p : Loading} (h : p.number = (s.phase t).number) (u : ι) :
    (Function.update s.phase t p u).number = (s.phase u).number := by
  by_cases hu : u = t
  · subst hu
    rwa [Function.update_self]
  · rw [Function.update_of_ne hu]

lemma stored_update {t : ι} {p : Loading} {k : Word} (h : ∀ w, p.Stored w ↔ w = k)
    (ht : ∀ w, (s.phase t).Stored w → w = k) (u : ι) (w : Word) :
    (Function.update s.phase t p u).Stored w ↔ (s.phase u).Stored w ∨ u = t ∧ w = k := by
  by_cases hu : u = t
  · subst hu
    rw [Function.update_self,h]
    exact ⟨fun hw => .inr ⟨rfl,hw⟩,fun hw => hw.elim (ht w) And.right⟩
  · rw [Function.update_of_ne hu]
    simp [hu]

lemma Loading.Stored.number {p : Loading} {k : Word} (h : p.Stored k) : p.number = some k := by
  rcases h with rfl | rfl <;> rfl

omit [DecidableEq ι] in
/-- A thread about to store below the counter of `r` stores what `r` has there. -/
lemma LoadInv.below (hcalls : ∀ t, Harmless r (calls t)) (h : LoadInv calls r s) {t : ι} {k : Word}
    (hk : k.toNat < 64) (ht : (s.phase t).number = some k)
    (hlt : k.toNat < r.nextDynSubsys.toNat) :
    r.syscallSubsysArray ⟨_,hk⟩ = some (calls t).arr ∧
      r.subsysRegistry ⟨_,hk⟩ = some (calls t).info := by
  rcases hcalls t with hd | ⟨hd,hlt',-,heq⟩
  · exact absurd (h.dynamic t k hd ht).1 (by omega)
  · obtain rfl := h.explicit t k hd ht
    exact heq

omit [DecidableEq ι] in
lemma LoadInv.above (hcalls : ∀ t, Harmless r (calls t)) (h : LoadInv calls r s) {t : ι} {k : Word}
    (ht : (s.phase t).number = some k) (hle : r.nextDynSubsys.toNat ≤ k.toNat) :
    (calls t).dynamic = true := by
  rcases hcalls t with hd | ⟨hd,-,hlt,-⟩
  · exact hd
  · obtain rfl := h.explicit t k hd ht
    omega

lemma inv_table (hcalls : ∀ t, Harmless r (calls t)) (h : LoadInv calls r s) {t : ι} {k : Word}
    (hk : k.toNat < 64) (ht : s.phase t = .table k) :
    LoadInv calls r ⟨{ s.registry with
        syscallSubsysArray := Function.update s.registry.syscallSubsysArray ⟨k.toNat,hk⟩
          (some (calls t).arr) },Function.update s.phase t (.info k)⟩ := by
  have htk : (s.phase t).number = some k := by rw [ht]; rfl
  have hnum := number_update (s := s) (t := t) (p := .info k) htk.symm
  have hstored := stored_update (s := s) (t := t) (p := .info k) (k := k)
    (fun w => by simp [Loading.Stored,eq_comm]) (fun w hw => by simp [ht,Loading.Stored] at hw)
  refine ⟨h.counter,fun u k' hd hk' => h.dynamic u k' hd (by rwa [← hnum]),
    fun u k' hd hk' => h.explicit u k' hd (by rwa [← hnum]),?_,fun j hj => ?_,fun j arr hj => ?_,
    fun u w hw => ((hstored u w).mp hw).elim (h.stored u w) fun hu => hu.2 ▸ hk⟩
  · simpa only [hnum] using h.apart
  · refine ⟨?_,(h.low j hj).2⟩
    dsimp only
    by_cases hjk : j = ⟨k.toNat,hk⟩
    · subst hjk
      rw [Function.update_self]
      exact (h.below hcalls hk htk hj).1.symm
    · rw [Function.update_of_ne hjk]
      exact (h.low j hj).1
  · simp only [hstored]
    by_cases hjk : j = ⟨k.toNat,hk⟩
    · subst hjk
      rw [Function.update_self]
      have hd := h.above hcalls htk hj
      constructor
      · intro harr
        exact ⟨t,k,hd,rfl,.inr ⟨rfl,rfl⟩,Option.some.inj harr⟩
      · rintro ⟨u,w,hud,hw,hold | ⟨rfl,-⟩,rfl⟩
        · obtain rfl : w = k := BitVec.eq_of_toNat_eq hw
          rw [h.apart u t w ⟨hud,hold.number⟩ ⟨hd,htk⟩]
        · rfl
    · rw [Function.update_of_ne hjk,h.high j arr hj]
      refine exists_congr fun u => exists_congr fun w => ?_
      constructor
      · rintro ⟨hd,hw,hst,harr⟩
        exact ⟨hd,hw,.inl hst,harr⟩
      · rintro ⟨hd,hw,hst | ⟨-,rfl⟩,harr⟩
        · exact ⟨hd,hw,hst,harr⟩
        · exact absurd (Fin.ext hw.symm) hjk

lemma inv_info (hcalls : ∀ t, Harmless r (calls t)) (h : LoadInv calls r s) {t : ι} {k : Word}
    (hk : k.toNat < 64) (ht : s.phase t = .info k) :
    LoadInv calls r ⟨{ s.registry with
        subsysRegistry := Function.update s.registry.subsysRegistry ⟨k.toNat,hk⟩
          (some (calls t).info) },Function.update s.phase t (.done k)⟩ := by
  have htk : (s.phase t).number = some k := by rw [ht]; rfl
  have hnum := number_update (s := s) (t := t) (p := .done k) htk.symm
  have hstored : ∀ u w, (Function.update s.phase t (.done k) u).Stored w ↔
      (s.phase u).Stored w := by
    intro u w
    rw [stored_update (k := k) (fun w => by simp [Loading.Stored,eq_comm])
      (fun w hw => by simpa [ht,Loading.Stored,eq_comm] using hw)]
    exact or_iff_left_of_imp fun hu => by
      obtain ⟨rfl,rfl⟩ := hu
      exact .inl ht
  refine ⟨h.counter,fun u k' hd hk' => h.dynamic u k' hd (by rwa [← hnum]),
    fun u k' hd hk' => h.explicit u k' hd (by rwa [← hnum]),?_,fun j hj => ?_,fun j arr hj => ?_,
    fun u w hw => h.stored u w ((hstored u w).mp hw)⟩
  · simpa only [hnum] using h.apart
  · refine ⟨(h.low j hj).1,?_⟩
    dsimp only
    by_cases hjk : j = ⟨k.toNat,hk⟩
    · subst hjk
      rw [Function.update_self]
      exact (h.below hcalls hk htk hj).2.symm
    · rw [Function.update_of_ne hjk]
      exact (h.low j hj).2
  · simp only [hstored]
    exact h.high j arr hj

lemma inv_load (hcalls : ∀ t, Harmless r (calls t)) {t : ι} (h : LoadInv calls r s)
    (hs : loadStep calls s t = some s') : LoadInv calls r s' := by
  rcases loadStep_cases hs with ⟨ht,hd,hval,rfl⟩ | ⟨ht,hd,rfl⟩ | ⟨k,hk,ht,rfl⟩ | ⟨k,hk,ht,rfl⟩
  · have hle : s.registry.nextDynSubsys.toNat ≤ 64 := by
      rw [BitVec.not_lt,BitVec.le_def] at hval
      exact hval
    have hsucc : (s.registry.nextDynSubsys+1).toNat = s.registry.nextDynSubsys.toNat+1 := by
      rw [BitVec.toNat_add]
      exact Nat.mod_eq_of_lt (by change _+1 < _; omega)
    exact h.claim ht rfl rfl (by rw [hsucc]; omega) (by rw [hsucc]; omega)
      (fun _ => ⟨rfl,by rw [hsucc]; omega⟩) (fun hc => by rw [hd] at hc; cases hc)
  · exact h.claim ht rfl rfl le_rfl h.counter.2
      (fun hc => by rw [hd] at hc; cases hc) (fun _ => rfl)
  · exact inv_table hcalls h hk ht
  · exact inv_info hcalls h hk ht

omit [DecidableEq ι] in
/-- Before any thread has started. -/
lemma inv_start (hmax : r.nextDynSubsys.toNat ≤ 65)
    (hnone : ∀ k : Fin 64, r.nextDynSubsys.toNat ≤ k.val → r.syscallSubsysArray k = none) :
    LoadInv calls r ⟨r,fun _ => .start⟩ := by
  have hstored : ∀ w, ¬ Loading.start.Stored w := fun w hw => by simp [Loading.Stored] at hw
  refine ⟨⟨le_rfl,hmax⟩,?_,?_,?_,fun k _ => ⟨rfl,rfl⟩,fun k arr hk => ?_,
    fun t k hk => absurd hk (hstored k)⟩
  · rintro t k - ⟨⟩
  · rintro t k - ⟨⟩
  · rintro t u k ⟨-,⟨⟩⟩
  · rw [hnone k hk]
    constructor
    · rintro ⟨⟩
    · rintro ⟨t,w,-,-,hw,-⟩
      exact absurd hw (hstored w)

end Loading

section Booted

variable {α : Type*} {f : Handler → α} {N : Sysno}

/-- The entries of the table with number `k`. -/
def bootEntries (N : Sysno) : ℕ → Entries
  | 0 => baseEntries N
  | 2 => ioEntries
  | 3 => processEntries
  | _ => []

lemma bootCalls_arr (k : ℕ) (j : Fin 4096) (a : α) :
    ((bootCalls f N)[k]?.bind fun c => c.arr j) = some a ↔
      ∃ e ∈ bootEntries N k, e.1 = j.val ∧ f e.2 = a := by
  have hbase : ((baseEntries N).map Prod.fst).Nodup := by
    simp [baseEntries,Fin.val_inj,N.ne]
  rcases k with _ | _ | _ | _ | _ | _ | k
  · exact syscalls_eq_some_iff f (baseEntries_fit N) hbase j a
  · exact syscalls_eq_some_iff f nil_fit (by simp) j a
  · exact syscalls_eq_some_iff f ioEntries_fit (by decide) j a
  · exact syscalls_eq_some_iff f processEntries_fit (by decide) j a
  · exact syscalls_eq_some_iff f nil_fit (by simp) j a
  · exact syscalls_eq_some_iff f nil_fit (by simp) j a
  · simp [bootCalls,bootEntries]

lemma bootEntries_lt {k : ℕ} {e : ℕ × Handler} (he : e ∈ bootEntries N k) : e.1 < 4096 := by
  unfold bootEntries at he
  split at he
  · exact (baseEntries_fit N).2 e he
  · exact ioEntries_fit.2 e he
  · exact processEntries_fit.2 e he
  · exact absurd he (by simp)

/-- The number of a call is that of its subsystem followed by its index in the table. -/
lemma mem_guestCalls {e : ℕ × Handler} :
    e ∈ guestCalls N ↔ ∃ k, ∃ e' ∈ bootEntries N k, e = (4096*k+e'.1,e'.2) := by
  constructor
  · intro he
    simp only [guestCalls,List.mem_append,List.mem_map] at he
    rcases he with (he | ⟨e',he,rfl⟩) | ⟨e',he,rfl⟩
    · exact ⟨0,e,he,by simp⟩
    · exact ⟨2,e',he,rfl⟩
    · exact ⟨3,e',he,rfl⟩
  · rintro ⟨k,e',he,rfl⟩
    simp only [guestCalls,List.mem_append,List.mem_map]
    unfold bootEntries at he
    split at he
    · exact .inl (.inl (by simpa using he))
    · exact .inl (.inr ⟨e',he,rfl⟩)
    · exact .inr ⟨e',he,rfl⟩
    · exact absurd he (by simp)

/-- The registry when the guest starts. -/
lemma boot_registry {r : Registry α SubsysInfo}
    (h : run Registry.register .initial (bootCalls f N) = some r) :
    r.nextDynSubsys = 8#64 ∧
      (∀ k, r.syscallSubsysArray k = ((bootCalls f N)[k.val]?).map Call.arr) ∧
      ∀ k, r.subsysRegistry k = ((bootCalls f N)[k.val]?).map Call.info := by
  have hperm : ∀ c ∈ bootCalls f N, c.Permitted := by
    simp [bootCalls,Call.Permitted]
  have hreg := initial_registered.run hperm h
  have hnumbers : (history .initial (bootCalls f N)).map Prod.fst =
      [0#64,1#64,2#64,3#64,4#64,5#64] := rfl
  have hlast : ∀ k : Fin 64, lastAt ([]++history .initial (bootCalls f N)) k.val =
      (bootCalls f N)[k.val]? := by
    rintro ⟨_ | _ | _ | _ | _ | _ | k,hk⟩
    · rfl
    · rfl
    · rfl
    · rfl
    · rfl
    · rfl
    · refine lastAt_none fun e he => ?_
      have hmem := List.mem_map_of_mem (f := Prod.fst) he
      rw [List.nil_append,hnumbers] at hmem
      have hlt : ∀ n ∈ [0#64,1#64,2#64,3#64,4#64,5#64], n.toNat < 6 := by simp
      have := hlt _ hmem
      change e.1.toNat ≠ k+6
      omega
  refine ⟨?_,fun k => ?_,fun k => ?_⟩
  · have hnext : (run Registry.register .initial (bootCalls f N)).map Registry.nextDynSubsys =
        some 8#64 := rfl
    rw [h] at hnext
    exact Option.some.inj hnext
  · rw [hreg.table,hlast]
  · rw [hreg.info,hlast]

/-- A booted library loaded once more stores what is there. -/
lemma bootCalls_harmless {r : Registry α SubsysInfo}
    (h : run Registry.register .initial (bootCalls f N) = some r) {c : Call α SubsysInfo}
    (hc : c ∈ bootCalls f N) : Harmless r c := by
  obtain ⟨hnext,htable,hinfo⟩ := boot_registry h
  have hnum : ∀ c ∈ bootCalls f N, c.dynamic = false ∧ c.subsys.toNat < 6 ∧
      (bootCalls f N)[c.subsys.toNat]? = some c := by
    simp [bootCalls,Call.dynamic,dynamicMarker]
  obtain ⟨hd,hlt,hget⟩ := hnum c hc
  refine .inr ⟨hd,by omega,?_,?_,?_⟩
  · rw [hnext]
    change _ < 8
    omega
  · rw [htable,hget]
    rfl
  · rw [hinfo,hget]
    rfl

variable {ι : Type*} [DecidableEq ι] {calls : ι → Call α SubsysInfo}

/-- While threads load subsystems, in any interleaving, the calls below `8*4096` are those of the
tables of the six subsystems, and those from there on are the calls of the tables stored so far under
numbers that are the threads' own. -/
theorem dispatch_under_loading {r : Registry α SubsysInfo} {s : Loaders ι α SubsysInfo}
    {ts : List ι} (hboot : run Registry.register .initial (bootCalls f N) = some r)
    (hcalls : ∀ t, (calls t).dynamic = true ∨ calls t ∈ bootCalls f N)
    (h : run (loadStep calls) ⟨r,fun _ => .start⟩ ts = some s) :
    (∀ n a, n.toNat < 8*4096 →
      (handleSyscall s.registry n = .jump a ↔ ∃ e ∈ guestCalls N, e.1 = n.toNat ∧ f e.2 = a)) ∧
    (∀ n a, 8*4096 ≤ n.toNat →
      (handleSyscall s.registry n = .jump a ↔ ∃ t k, (calls t).dynamic = true ∧
        (s.phase t).Stored k ∧ k.toNat = n.toNat/4096 ∧
        (calls t).arr ⟨n.toNat%4096,Nat.mod_lt _ (by decide)⟩ = some a)) ∧
    (∀ n, handleSyscall s.registry n ≠ .outOfRange) ∧
    Exclusive (fun t k => (calls t).dynamic = true ∧ (s.phase t).number = some k) ∧
    ∀ t k, (calls t).dynamic = true → (s.phase t).number = some k → 8 ≤ k.toNat := by
  obtain ⟨hnext,htable,hinfo⟩ := boot_registry hboot
  have hharm : ∀ t, Harmless r (calls t) := fun t =>
    (hcalls t).elim .inl fun hc => bootCalls_harmless hboot hc
  have hstart : LoadInv calls r ⟨r,fun _ => .start⟩ := by
    refine inv_start (by rw [hnext]; decide) fun k hk => ?_
    rw [hnext] at hk
    change 8 ≤ _ at hk
    rw [htable,List.getElem?_eq_none (by change 6 ≤ _; omega)]
    rfl
  have hinv : LoadInv calls r s := run_invariant (fun s t s' => inv_load hharm) hstart h
  have h8 : r.nextDynSubsys.toNat = 8 := by rw [hnext]; rfl
  have hjump : ∀ (o : Option α) a, Dispatch.ofEntry o = .jump a ↔ o = some a := by
    rintro (_ | b) a <;> simp [Dispatch.ofEntry]
  refine ⟨fun n a hn => ?_,fun n a hn => ?_,fun n => ?_,hinv.apart,fun t k hd hk => ?_⟩
  · have hlt : n.toNat/4096 < 64 := by omega
    rw [handleSyscall_eq,hjump,dif_pos hlt,(hinv.low ⟨_,hlt⟩ (by change _/4096 < _; omega)).1,htable,
      Option.bind_map]
    refine (bootCalls_arr _ _ a).trans ⟨?_,?_⟩
    · rintro ⟨e,he,hj,hf⟩
      change e.1 = n.toNat%4096 at hj
      exact ⟨_,mem_guestCalls.mpr ⟨_,e,he,rfl⟩,by change 4096*(n.toNat/4096)+e.1 = _; omega,hf⟩
    · rintro ⟨e,he,hj,hf⟩
      obtain ⟨k,e',he',rfl⟩ := mem_guestCalls.mp he
      have hlt' := bootEntries_lt he'
      change 4096*k+e'.1 = _ at hj
      obtain rfl : k = n.toNat/4096 := by omega
      exact ⟨e',he',by change _ = n.toNat%4096; omega,hf⟩
  · rw [handleSyscall_eq,hjump]
    by_cases hlt : n.toNat/4096 < 64
    · rw [dif_pos hlt]
      constructor
      · intro ha
        obtain ⟨arr,harr,ha⟩ := Option.bind_eq_some_iff.mp ha
        obtain ⟨t,k,hd,hk,hst,rfl⟩ :=
          (hinv.high ⟨_,hlt⟩ arr (by change _ ≤ _/4096; omega)).mp harr
        exact ⟨t,k,hd,hst,hk,ha⟩
      · rintro ⟨t,k,hd,hst,hk,ha⟩
        rw [(hinv.high ⟨_,hlt⟩ _ (by change _ ≤ _/4096; omega)).mpr ⟨t,k,hd,hk,hst,rfl⟩]
        exact ha
    · rw [dif_neg hlt]
      constructor
      · rintro ⟨⟩
      · rintro ⟨t,k,hd,hst,hk,ha⟩
        exact absurd (hinv.stored t k hst) (by omega)
  · rw [handleSyscall_eq]
    split
    · cases ((s.registry.syscallSubsysArray _).bind _) <;> simp [Dispatch.ofEntry]
    · simp [Dispatch.ofEntry]
  · have := (hinv.dynamic t k hd hk).1
    omega

end Booted

/-- One thread loads the io library once more, the other one a library with a table of its own. -/
def twoLoads (t : Bool) : Call (Option Handler) SubsysInfo :=
  if t then ⟨dynamicMarker,fun i => if i.val = 5 then some none else none,subsysInfo 7#128⟩
  else ⟨2#64,syscalls some ioEntries ioEntries_fit,
    subsysInfo 0x144e71379e855b9e8d4a8c700fb9d6bd#128⟩

theorem dispatch_under_loading_two :
    ∃ r s, run Registry.register .initial (bootCalls some ⟨0,1,by decide⟩) = some r ∧
      run (loadStep twoLoads) ⟨r,fun _ => .start⟩ [false,true,true,false] = some s ∧
      handleSyscall s.registry 0x2001#64 = .jump (some .ioWrite) ∧
      handleSyscall s.registry 0x8005#64 = .jump none ∧
      ∀ a, handleSyscall s.registry 0x2000#64 ≠ .jump a := by
  obtain ⟨r,hr⟩ : ∃ r, run Registry.register .initial (bootCalls some ⟨0,1,by decide⟩) = some r :=
    ⟨_,rfl⟩
  have hphase : (run (loadStep twoLoads) ⟨r,fun _ => .start⟩ [false,true,true,false]).map
      (fun s => s.phase true) = some (.info 8#64) := by
    simp [run,loadStep,twoLoads,Call.dynamic,dynamicMarker,(boot_registry hr).1]
  obtain ⟨s,hs,hs8⟩ := Option.map_eq_some_iff.mp hphase
  have hcalls : ∀ t, (twoLoads t).dynamic = true ∨
      twoLoads t ∈ bootCalls some ⟨0,1,by decide⟩ := by
    rintro (_ | _)
    · exact .inr (by simp [twoLoads,bootCalls])
    · exact .inl rfl
  obtain ⟨hlow,hhigh,-⟩ := dispatch_under_loading hr hcalls hs
  refine ⟨r,s,hr,hs,?_,?_,fun a ha => ?_⟩
  · exact (hlow _ _ (by decide)).mpr ⟨(0x2001,.ioWrite),by decide,rfl,rfl⟩
  · exact (hhigh _ _ (by decide)).mpr ⟨true,8#64,rfl,.inl hs8,rfl,rfl⟩
  · obtain ⟨e,he,hn,-⟩ := (hlow _ _ (by decide)).mp ha
    revert hn
    revert he
    revert e
    decide

end WinterLily.Syscall
