import WinterLily.Base.Stack

/-! The stack of a process as `wl-ld-lilium` finds and builds it: `_start` and `__call_entry_point`
of `entry/x86_64.rs`, and the count of the environment that `__rust_entry` of `entry.rs` takes from
one to the other. -/
namespace WinterLily.Entry
open WinterLily.Stack

/-- What `_start` passes to `__rust_entry`: argc, argv, envp and auxv. -/
structure StartRegs where
  r12 : Word
  r13 : Word
  r14 : Word
  r15 : Word
  deriving DecidableEq, Repr

/-- `_start._find_auxv`, for at most `fuel` rounds. -/
def findAuxv (m : Store) : ℕ → Word → Option Word
  | 0,_ => none
  | fuel+1,r15 => if m r15 = 0#64 then some (r15+8#64) else findAuxv m fuel (r15+8#64)

/-- `_start` up to the switch of stacks. -/
def start (m : Store) (fuel : ℕ) (rsp : Word) : Option StartRegs :=
  let r12 := m rsp
  let rsp := rsp+8#64
  let r13 := rsp
  let r14 := rsp+8#64*r12+8#64
  (findAuxv m fuel r14).map fun r15 => ⟨r12,r13,r14,r15⟩

/-- `envpc` of `__rust_entry`: `auxv.offset_from_unsigned(envp)`. -/
def envpc (envp auxv : Word) : Word := (auxv-envp)/8#64

/-- A loop that pushes the cells `base[k-1]` down to `base[0]`. -/
def pushArray (base : Word) : ℕ → Frame → Frame
  | 0,s => s
  | k+1,s => pushArray base k (s.push (s.store (cell base k)))

/-- The loop that moves `k` entries of the auxiliary vector, last first. -/
def copyAux (src dst : Word) : ℕ → Store → Store
  | 0,m => m
  | k+1,m =>
    let lo := m (cell src (2*k))
    let hi := m (cell src (2*k+1))
    copyAux src dst k
      (Function.update (Function.update m (cell dst (2*k+1)) hi) (cell dst (2*k)) lo)

/-- The room made for the auxiliary vector and its loop. -/
def pushAuxv (auxv numaux : Word) (s : Frame) : Frame :=
  let r9 := numaux <<< 4
  let rsp := s.rsp-r9
  ⟨rsp,copyAux auxv rsp (r9.toNat/16) s.store⟩

/-- The machine at the jump to the entry point. -/
structure Entered where
  frame : Frame
  rbx : Word
  r12 : Word
  target : Word

/-- `__call_entry_point`. -/
def callEntryPoint (argc argv envp numenv auxv numaux : Word) (s : Frame) : Entered :=
  let rax := s.store s.rsp
  let r10 := s.store (s.rsp+8#64)
  let s := { s with rsp := s.rsp+16#64 }
  let s := if (argc+numenv) &&& 1#64 = 0#64 then s else s.push rax
  let rcx := numenv <<< 3
  let s := (s.push 0#64).push 0#64
  let s := pushAuxv auxv numaux s
  let rbx := s.rsp
  let s := s.push 0#64
  let s := pushArray envp (rcx.toNat/8) s
  let r12 := s.rsp
  let s := s.push 0#64
  let s := pushArray argv argc.toNat s
  let s := s.push argc
  ⟨s,rbx,r12,r10⟩

/-- The end of `__setup_auxv`; the three entries of `lilium_aux` are in the store. -/
def setupAuxv (argc argv envp envpc liliumAux : Word) (s : Frame) : Entered :=
  callEntryPoint argc argv envp envpc liliumAux 3#64 s

section Walk

variable {m : Store} {a : Word} {env rest : List Word}

lemma findAuxv_eq (h : Holds m a (env++0#64::rest)) (henv : ∀ w ∈ env, w ≠ 0#64) {fuel : ℕ}
    (hfuel : env.length < fuel) : findAuxv m fuel a = some (cell a (env.length+1)) := by
  induction env generalizing a fuel with
  | nil =>
    obtain ⟨fuel,rfl⟩ := Nat.exists_eq_add_one.mpr hfuel
    exact if_pos h.1
  | cons w env ih =>
    obtain ⟨fuel,rfl⟩ := Nat.exists_eq_add_one.mpr (Nat.zero_lt_of_lt hfuel)
    have hw : m a ≠ 0#64 := by
      rw [h.1]
      exact henv w (by simp)
    rw [List.length_cons] at hfuel ⊢
    rw [findAuxv,if_neg hw,← cell_one,ih h.2 (fun v hv => henv v (by simp [hv])) (by omega),
      cell_cell,Nat.add_comm 1]

/-- The walk over a stack that was laid out as the kernel does. -/
lemma start_eq {args : List Word} {argc : Word}
    (h : Holds m a (argc::(args++0#64::(env++0#64::rest)))) (hargc : argc.toNat = args.length)
    (henv : ∀ w ∈ env, w ≠ 0#64) {fuel : ℕ} (hfuel : env.length < fuel) :
    start m fuel a = some ⟨argc,cell a 1,cell a (args.length+2),
      cell a (args.length+2+(env.length+1))⟩ := by
  have hr14 : a+8#64+8#64*argc+8#64 = cell a (args.length+2) := by
    have hoff : 8#64*argc = BitVec.ofNat 64 (8*args.length) := by
      apply BitVec.eq_of_toNat_eq
      rw [BitVec.toNat_mul,BitVec.toNat_ofNat,hargc]
      rfl
    have hsum : args.length+2 = 1+(args.length+1) := by omega
    rw [hsum,← cell_cell,← cell_cell (cell a 1),cell_one,cell_one,hoff]
    rfl
  have hrest : Holds m (cell a (args.length+2)) (env++0#64::rest) := by
    have htail := (holds_append.mp h.2).2.2
    rwa [cell_cell,cell_cell,show 1+(args.length+1) = args.length+2 by omega] at htail
  unfold start
  simp only [h.1,hr14]
  rw [findAuxv_eq hrest henv hfuel,cell_cell]
  rfl

end Walk

section Writer

/-- The cells `base[0]` up to `base[k-1]`. -/
def words (m : Store) (base : Word) (k : ℕ) : List Word := (List.range k).map fun i => m (cell base i)

@[simp] lemma words_length (m : Store) (base : Word) (k : ℕ) : (words m base k).length = k := by
  simp [words]

lemma words_succ (m : Store) (base : Word) (k : ℕ) :
    (words m base (k+1)).reverse = m (cell base k)::(words m base k).reverse := by
  simp [words,List.range_succ]

lemma words_eq {m : Store} {base : Word} {ws : List Word} (h : Holds m base ws) :
    words m base ws.length = ws := holds_iff.mp h

variable {m : Store} {base : Word}

/-- Cells that `k` more pushes do not reach read as they do in `m`. -/
def Reads (m : Store) (s : Frame) (base : Word) (k : ℕ) : Prop :=
  ∀ vs : List Word, vs.length ≤ k → ∀ i < k, (s.pushAll vs).store (cell base i) = m (cell base i)

lemma Reads.push {s : Frame} {k : ℕ} (h : Reads m s base (k+1)) (v : Word) :
    Reads m (s.push v) base k :=
  fun vs hvs i hi => h (v::vs) (by simpa using hvs) i (by omega)

lemma pushArray_eq {s : Frame} {k : ℕ} (h : Reads m s base k) :
    pushArray base k s = s.pushAll (words m base k).reverse := by
  induction k generalizing s with
  | zero => rfl
  | succ k ih =>
    have hread : s.store (cell base k) = m (cell base k) :=
      h [] (Nat.zero_le _) k (Nat.lt_succ_self k)
    rw [pushArray,hread,ih (h.push _),words_succ]
    rfl

/-- Moving the entries down from the top is pushing their words. -/
lemma copyAux_eq {s : Frame} {k : ℕ} {dst : Word} (hdst : cell dst (2*k) = s.rsp)
    (h : Reads m s base (2*k)) :
    (⟨dst,copyAux base dst k s.store⟩ : Frame) = s.pushAll (words m base (2*k)).reverse := by
  induction k generalizing s with
  | zero =>
    have hdst : dst = s.rsp := by rw [← hdst,cell_zero]
    rw [hdst]
    rfl
  | succ k ih =>
    have hlo : s.store (cell base (2*k)) = m (cell base (2*k)) :=
      h [] (Nat.zero_le _) _ (by omega)
    have hhi : s.store (cell base (2*k+1)) = m (cell base (2*k+1)) :=
      h [] (Nat.zero_le _) _ (by omega)
    let s₁ := s.push (m (cell base (2*k+1)))
    let s₂ := s₁.push (m (cell base (2*k)))
    have hrsp₁ : cell dst (2*k+1) = s.rsp-8#64 := by
      rw [← hdst,show 2*(k+1) = 2*k+1+1 by omega,← cell_cell dst (2*k+1) 1,cell_one]
      exact (add_sub_cancel_right _ _).symm
    have hrsp₂ : cell dst (2*k) = s.rsp-8#64-8#64 := by
      rw [← hrsp₁,← cell_cell dst (2*k) 1,cell_one]
      exact (add_sub_cancel_right _ _).symm
    have hstore : Function.update
        (Function.update s.store (cell dst (2*k+1)) (m (cell base (2*k+1))))
        (cell dst (2*k)) (m (cell base (2*k))) = s₂.store := by
      rw [hrsp₁,hrsp₂]
      rfl
    rw [copyAux,hlo,hhi,hstore,ih hrsp₂ ((h.push _).push _)]
    rw [show 2*(k+1) = 2*k+1+1 by omega,words_succ,words_succ]
    rfl

lemma pushAuxv_eq {s : Frame} {numaux : Word} (hn : numaux.toNat < 2^60)
    (h : Reads m s base (2*numaux.toNat)) :
    pushAuxv base numaux s = s.pushAll (words m base (2*numaux.toNat)).reverse := by
  have hr9 : (numaux <<< 4).toNat = 16*numaux.toNat := by
    rw [BitVec.toNat_shiftLeft,Nat.shiftLeft_eq]
    omega
  have hoff : numaux <<< 4 = BitVec.ofNat 64 (8*(2*numaux.toNat)) := by
    apply BitVec.eq_of_toNat_eq
    rw [hr9,BitVec.toNat_ofNat,Nat.mod_eq_of_lt (by omega)]
    omega
  have hdst : cell (s.rsp-numaux <<< 4) (2*numaux.toNat) = s.rsp := by
    rw [hoff]
    exact cell_below s.rsp (2*numaux.toNat)
  unfold pushAuxv
  simp only [hr9,Nat.mul_div_cancel_left numaux.toNat (show 0 < 16 by decide)]
  exact copyAux_eq hdst h

/-- None of the cells `base[0]` up to `base[k-1]` is among the `n` cells from `low` on. -/
def Clear (low : Word) (n : ℕ) (base : Word) (k : ℕ) : Prop :=
  ∀ i < n, ∀ j < k, cell base j ≠ cell low i

instance (low : Word) (n : ℕ) (base : Word) (k : ℕ) : Decidable (Clear low n base k) :=
  inferInstanceAs (Decidable (∀ i, i < n → ∀ j, j < k → cell base j ≠ cell low i))

lemma Clear.reads {s : Frame} {low : Word} {n k : ℕ} (hlow : cell low n = s.rsp)
    (hclear : Clear low n base k) {vs : List Word} (hn : vs.length+k ≤ n) :
    Reads s.store (s.pushAll vs) base k := by
  intro ws hws i hi
  rw [← Frame.pushAll_append]
  refine Frame.pushAll_frame hlow ?_ fun j hj => hclear j hj i hi
  rw [List.length_append]
  omega

/-- The padding word, pushed when the words above the auxiliary vector are odd in number. -/
def padding (argc numenv rax : Word) : List Word :=
  if (argc+numenv) &&& 1#64 = 0#64 then [] else [rax]

lemma padding_length (argc numenv rax : Word) : (padding argc numenv rax).length ≤ 1 := by
  unfold padding
  split_ifs <;> simp

/-- The words of the auxiliary vector and what is above it, in the order they are pushed. -/
def auxPushes (argc numenv auxv : Word) (s : Frame) (n : ℕ) : List Word :=
  padding argc numenv (s.store s.rsp)++[0#64,0#64]++(words s.store auxv (2*n)).reverse

/-- All the words, in the order they are pushed. -/
def pushes (argc argv envp numenv auxv : Word) (s : Frame) (n : ℕ) : List Word :=
  auxPushes argc numenv auxv s n++[0#64]++(words s.store envp numenv.toNat).reverse++[0#64]++
    (words s.store argv argc.toNat).reverse++[argc]

variable {argc argv envp numenv auxv numaux low : Word} {s : Frame} {n : ℕ}

lemma auxPushes_length : (auxPushes argc numenv auxv s n).length =
    (padding argc numenv (s.store s.rsp)).length+2*n+2 := by
  simp only [auxPushes,List.length_append,List.length_cons,List.length_nil,List.length_reverse,
    words_length]
  omega

lemma pushes_length : (pushes argc argv envp numenv auxv s n).length =
    (padding argc numenv (s.store s.rsp)).length+argc.toNat+numenv.toNat+2*n+5 := by
  simp only [pushes,List.length_append,List.length_cons,List.length_nil,List.length_reverse,
    words_length,auxPushes_length]
  omega

/-- The stack after the padding and the end of the auxiliary vector. -/
lemma pad_eq (s₀ : Frame) (argc numenv rax : Word) :
    ((if (argc+numenv) &&& 1#64 = 0#64 then s₀ else s₀.push rax).push 0#64).push 0#64 =
      s₀.pushAll (padding argc numenv rax++[0#64,0#64]) := by
  unfold padding
  split_ifs <;> rfl

/-- `__call_entry_point` is a sequence of pushes from where its arguments were popped. -/
lemma callEntryPoint_eq (henv : numenv.toNat < 2^61) (haux : numaux.toNat < 2^60)
    (hlow : cell low n = s.rsp+16#64)
    (hroom : (pushes argc argv envp numenv auxv s numaux.toNat).length ≤ n)
    (hargv : Clear low n argv argc.toNat) (henvp : Clear low n envp numenv.toNat)
    (hauxv : Clear low n auxv (2*numaux.toNat)) :
    (callEntryPoint argc argv envp numenv auxv numaux s).frame =
        Frame.pushAll ⟨s.rsp+16#64,s.store⟩ (pushes argc argv envp numenv auxv s numaux.toNat) ∧
      (callEntryPoint argc argv envp numenv auxv numaux s).rbx =
        (Frame.pushAll ⟨s.rsp+16#64,s.store⟩ (auxPushes argc numenv auxv s numaux.toNat)).rsp ∧
      (callEntryPoint argc argv envp numenv auxv numaux s).r12 =
        (Frame.pushAll ⟨s.rsp+16#64,s.store⟩ (auxPushes argc numenv auxv s numaux.toNat++[0#64]++
          (words s.store envp numenv.toNat).reverse)).rsp := by
  have hrcx : (numenv <<< 3).toNat/8 = numenv.toNat := by
    rw [BitVec.toNat_shiftLeft,Nat.shiftLeft_eq]
    omega
  let s₀ : Frame := ⟨s.rsp+16#64,s.store⟩
  -- each array is read before any push can reach it
  have hreads : ∀ {base : Word} {k : ℕ} (vs : List Word), Clear low n base k → vs.length+k ≤ n →
      Reads s.store (s₀.pushAll vs) base k := fun vs hclear hlen => hclear.reads hlow hlen
  have hlen : (auxPushes argc numenv auxv s numaux.toNat).length =
      (padding argc numenv (s.store s.rsp)).length+2*numaux.toNat+2 := auxPushes_length
  rw [pushes_length] at hroom
  have h₁ : pushAuxv auxv numaux (s₀.pushAll (padding argc numenv (s.store s.rsp)++[0#64,0#64])) =
      s₀.pushAll (auxPushes argc numenv auxv s numaux.toNat) := by
    exact (pushAuxv_eq haux (hreads _ hauxv (by simp; omega))).trans Frame.pushAll_append.symm
  have h₂ := pushArray_eq (hreads (auxPushes argc numenv auxv s numaux.toNat++[0#64]) henvp
    (by simp; omega))
  rw [← Frame.pushAll_append] at h₂
  have h₃ := pushArray_eq (hreads (auxPushes argc numenv auxv s numaux.toNat++[0#64]++
    (words s.store envp numenv.toNat).reverse++[0#64]) hargv (by simp; omega))
  rw [← Frame.pushAll_append] at h₃
  refine ⟨?_,?_,?_⟩
  · change ((pushArray argv argc.toNat ((pushArray envp ((numenv <<< 3).toNat/8)
      ((pushAuxv auxv numaux (((if (argc+numenv) &&& 1#64 = 0#64 then s₀
        else s₀.push (s.store s.rsp)).push 0#64).push 0#64)).push 0#64)).push 0#64)).push argc) = _
    rw [pad_eq,h₁,← Frame.pushAll_snoc,hrcx,h₂,← Frame.pushAll_snoc,h₃,← Frame.pushAll_snoc]
    rfl
  · change (pushAuxv auxv numaux (((if (argc+numenv) &&& 1#64 = 0#64 then s₀
        else s₀.push (s.store s.rsp)).push 0#64).push 0#64)).rsp = _
    rw [pad_eq,h₁]
  · change (pushArray envp ((numenv <<< 3).toNat/8) ((pushAuxv auxv numaux
      (((if (argc+numenv) &&& 1#64 = 0#64 then s₀
        else s₀.push (s.store s.rsp)).push 0#64).push 0#64)).push 0#64)).rsp = _
    rw [pad_eq,h₁,← Frame.pushAll_snoc,hrcx,h₂]

end Writer

/-- The stack as the kernel leaves it: the arguments, the environment and the auxiliary vector. -/
structure KernelStack (m : Store) (rsp : Word) (args env aux : List Word) : Prop where
  laidOut : Holds m rsp (BitVec.ofNat 64 args.length::(args++0#64::(env++0#64::aux)))
  nonNull : ∀ w ∈ env, w ≠ 0#64
  size : args.length+env.length < 2^60

/-- The `k` cells at `base` are away from the `n` that will be pushed once the two words at the
stack pointer are popped. -/
def Spared (s : Frame) (n : ℕ) (base : Word) (k : ℕ) : Prop :=
  Clear (below (s.rsp+16#64) n) n base k

instance (s : Frame) (n : ℕ) (base : Word) (k : ℕ) : Decidable (Spared s n base k) :=
  inferInstanceAs (Decidable (Clear _ _ _ _))

/-- The machine when `__setup_auxv` calls `__call_entry_point`: the arguments to be passed and the
environment are in memory, away from the cells that the call will push. -/
structure CallReady (s : Frame) (argc argv envp liliumAux : Word) (args env : List Word) : Prop where
  count : argc.toNat = args.length
  argsAt : Holds s.store argv args
  envAt : Holds s.store envp (env++[0#64])
  argsSpared : Spared s (args.length+env.length+13) argv args.length
  envSpared : Spared s (args.length+env.length+13) envp (env.length+1)
  auxSpared : Spared s (args.length+env.length+13) liliumAux 6
  size : args.length+env.length < 2^60

/-- The walk of `_start` finds these arguments, this environment and the auxiliary vector there. -/
def Decodes (m : Store) (rsp argc : Word) (args env : List Word) (auxv : Word) : Prop :=
  ∃ fuel r, start m fuel rsp = some r ∧ r.r12 = argc ∧ Holds m r.r13 (args++[0#64]) ∧
    Holds m r.r14 (env++[0#64]) ∧ r.r15 = auxv

lemma findAuxv_unique {m : Store} {f g : ℕ} {a x y : Word} (hx : findAuxv m f a = some x)
    (hy : findAuxv m g a = some y) : x = y := by
  induction f generalizing a g with
  | zero => cases hx
  | succ f ih =>
    cases g with
    | zero => cases hy
    | succ g =>
      rw [findAuxv] at hx hy
      by_cases hzero : m a = 0#64
      · rw [if_pos hzero] at hx hy
        exact Option.some.inj (hx.symm.trans hy)
      · rw [if_neg hzero] at hx hy
        exact ih hx hy

lemma start_unique {m : Store} {f g : ℕ} {a : Word} {q r : StartRegs} (hq : start m f a = some q)
    (hr : start m g a = some r) : q = r := by
  obtain ⟨x,hx,rfl⟩ := Option.map_eq_some_iff.mp hq
  obtain ⟨y,hy,rfl⟩ := Option.map_eq_some_iff.mp hr
  rw [findAuxv_unique hx hy]

/-- The count that `__rust_entry` computes includes the NULL. -/
lemma envpc_eq {a : Word} {k : ℕ} (hk : k < 2^61) : envpc a (cell a k) = BitVec.ofNat 64 k := by
  have hsub : cell a k-a = BitVec.ofNat 64 (8*k) := add_sub_cancel_left a _
  apply BitVec.eq_of_toNat_eq
  rw [envpc,hsub,BitVec.toNat_udiv,BitVec.toNat_ofNat,BitVec.toNat_ofNat k,
    Nat.mod_eq_of_lt (show 8*k < 2^64 by omega),Nat.mod_eq_of_lt (show k < 2^64 by omega)]
  exact Nat.mul_div_cancel_left k (show 0 < 8 by decide)

section Entry

variable {s : Frame} {argc argv envp liliumAux : Word} {args env : List Word}

/-- What the entry point finds on its stack: the environment is followed by two NULLs. -/
lemma CallReady.layout (h : CallReady s argc argv envp liliumAux args env) {e : Entered}
    (he : e = setupAuxv argc argv envp (BitVec.ofNat 64 (env.length+1)) liliumAux s) :
    (∃ rest, Holds e.frame.store e.frame.rsp (argc::(args++0#64::(env++0#64::0#64::rest)))) ∧
      e.rbx = cell e.frame.rsp (args.length+env.length+4) := by
  have hsize := h.size
  have hargc := h.count
  have hnum : (BitVec.ofNat 64 (env.length+1)).toNat = env.length+1 := by
    rw [BitVec.toNat_ofNat]
    exact Nat.mod_eq_of_lt (by omega)
  have hpad := padding_length argc (BitVec.ofNat 64 (env.length+1)) (s.store s.rsp)
  have hroom : (pushes argc argv envp (BitVec.ofNat 64 (env.length+1)) liliumAux s
      (3#64).toNat).length ≤ args.length+env.length+13 := by
    have hthree : (3#64).toNat = 3 := rfl
    rw [pushes_length]
    omega
  have haux : (3#64).toNat < 2^60 := by decide
  have hargv : Spared s (args.length+env.length+13) argv argc.toNat := by
    rw [hargc]
    exact h.argsSpared
  have henvp : Spared s (args.length+env.length+13) envp
      (BitVec.ofNat 64 (env.length+1)).toNat := by
    rw [hnum]
    exact h.envSpared
  obtain ⟨hframe,hrbx,-⟩ := callEntryPoint_eq (by omega) haux (cell_below (s.rsp+16#64) _) hroom hargv
    henvp h.auxSpared
  have hargs : words s.store argv argc.toNat = args := by
    rw [hargc]
    exact words_eq h.argsAt
  have henv : words s.store envp (BitVec.ofNat 64 (env.length+1)).toNat = env++[0#64] := by
    have hwords := words_eq h.envAt
    rwa [List.length_append,List.length_singleton,← hnum] at hwords
  let top : List Word := auxPushes argc (BitVec.ofNat 64 (env.length+1)) liliumAux s 3
  let low : List Word := [0#64]++(env++[0#64]).reverse++[0#64]++args.reverse++[argc]
  have hpushes : pushes argc argv envp (BitVec.ofNat 64 (env.length+1)) liliumAux s 3 = top++low := by
    rw [pushes,hargs,henv]
    simp [top,low]
  have hlow : low.length = args.length+env.length+4 := by
    simp [low]
    omega
  have htop : top.length ≤ 9 := by
    have hlen : top.length = _ := auxPushes_length
    omega
  have hframe : e.frame = Frame.pushAll ⟨s.rsp+16#64,s.store⟩ (top++low) := by
    rw [he,← hpushes]
    exact hframe
  have hrbx : e.rbx = (Frame.pushAll ⟨s.rsp+16#64,s.store⟩ top).rsp := by
    rw [he]
    exact hrbx
  rw [hframe]
  constructor
  · refine ⟨top.reverse,?_⟩
    have hholds := Frame.pushAll_holds (s := ⟨s.rsp+16#64,s.store⟩) (top++low)
      (by rw [List.length_append]; omega)
    simpa [low] using hholds
  · rw [hrbx,← hlow]
    exact Frame.pushAll_append_rsp top low

/-- The loader's own walk over the stack it built finds the arguments and the environment, but takes
the second NULL for the start of the auxiliary vector. -/
theorem entry_stack_misses_auxv {m₀ : Store} {rsp₀ : Word} {args₀ aux₀ : List Word}
    (hkernel : KernelStack m₀ rsp₀ args₀ env aux₀) {fuel : ℕ} {r : StartRegs}
    (hstart : start m₀ fuel rsp₀ = some r)
    (hcall : CallReady s argc argv r.r14 liliumAux args env) {e : Entered}
    (he : e = setupAuxv argc argv r.r14 (envpc r.r14 r.r15) liliumAux s) :
    Decodes e.frame.store e.frame.rsp argc args env (e.rbx-8#64) ∧
      ¬ Decodes e.frame.store e.frame.rsp argc args env e.rbx := by
  have hsize := hkernel.size
  have hargc : (BitVec.ofNat 64 args₀.length).toNat = args₀.length := by
    rw [BitVec.toNat_ofNat]
    exact Nat.mod_eq_of_lt (by omega)
  have hr := start_unique hstart
    (start_eq hkernel.laidOut hargc hkernel.nonNull (Nat.lt_succ_self env.length))
  have hcount : envpc r.r14 r.r15 = BitVec.ofNat 64 (env.length+1) := by
    rw [hr,← cell_cell rsp₀ (args₀.length+2) (env.length+1)]
    exact envpc_eq (by omega)
  rw [hcount] at he
  obtain ⟨⟨rest,hlayout⟩,hrbx⟩ := hcall.layout he
  have hwalk := start_eq hlayout hcall.count hkernel.nonNull (Nat.lt_succ_self env.length)
  have hnext : cell (cell e.frame.rsp (args.length+2+(env.length+1))) 1 = e.rbx := by
    rw [hrbx,cell_cell]
    congr 1
    omega
  constructor
  · refine ⟨_,_,hwalk,rfl,?_,?_,?_⟩
    · have htail := hlayout.2
      rw [List.append_cons] at htail
      exact (holds_append.mp htail).1
    · have htail := (holds_append.mp hlayout.2).2.2
      rw [cell_cell,cell_cell,List.append_cons] at htail
      have hsum : 1+(args.length+1) = args.length+2 := by omega
      rw [hsum] at htail
      exact (holds_append.mp htail).1
    · rw [← hnext,cell_one]
      exact (add_sub_cancel_right _ _).symm
  · rintro ⟨fuel',r',hr',-,-,-,hauxv⟩
    rw [start_unique hr' hwalk,← hnext,cell_one] at hauxv
    exact absurd (left_eq_add.mp hauxv) (by decide)

end Entry

/-- One argument and one variable at `0x1000`, as the kernel lays them out. -/
def oneOfEach : Store := fun a =>
  if a = 0x1000#64 then 1#64
  else if a = 0x1008#64 then 0x70#64
  else if a = 0x1018#64 then 0x78#64
  else 0#64

/-- The registers that `_start` leaves for it. -/
def oneOfEachRegs : StartRegs := ⟨1#64,0x1008#64,0x1018#64,0x1028#64⟩

lemma oneOfEach_start : start oneOfEach 2 0x1000#64 = some oneOfEachRegs := by decide

/-- The stack of the entry point, built below `0x810` with `lilium_aux` at `0x900`. -/
def oneOfEachEntered : Entered :=
  setupAuxv 1#64 0x1008#64 oneOfEachRegs.r14 (envpc oneOfEachRegs.r14 oneOfEachRegs.r15) 0x900#64
    ⟨0x800#64,oneOfEach⟩

theorem entry_stack_misses_auxv_oneOfEach :
    KernelStack oneOfEach 0x1000#64 [0x70#64] [0x78#64] [0#64] ∧
      CallReady ⟨0x800#64,oneOfEach⟩ 1#64 0x1008#64 oneOfEachRegs.r14 0x900#64 [0x70#64] [0x78#64] ∧
      Decodes oneOfEachEntered.frame.store oneOfEachEntered.frame.rsp 1#64 [0x70#64] [0x78#64]
        (oneOfEachEntered.rbx-8#64) ∧
      ¬ Decodes oneOfEachEntered.frame.store oneOfEachEntered.frame.rsp 1#64 [0x70#64] [0x78#64]
        oneOfEachEntered.rbx := by
  have hkernel : KernelStack oneOfEach 0x1000#64 [0x70#64] [0x78#64] [0#64] :=
    ⟨⟨rfl,rfl,rfl,rfl,rfl,rfl,trivial⟩,by simp,by simp⟩
  have hcall : CallReady ⟨0x800#64,oneOfEach⟩ 1#64 0x1008#64 oneOfEachRegs.r14 0x900#64 [0x70#64]
      [0x78#64] :=
    ⟨rfl,⟨rfl,trivial⟩,⟨rfl,rfl,trivial⟩,by decide +kernel,by decide +kernel,by decide +kernel,
      by decide⟩
  exact ⟨hkernel,hcall,entry_stack_misses_auxv hkernel oneOfEach_start hcall rfl⟩

/-- The walk stops one cell short of the auxiliary vector. -/
theorem second_null_taken_for_auxv :
    ¬ Decodes oneOfEachEntered.frame.store oneOfEachEntered.frame.rsp 1#64 [0x70#64] [0x78#64]
      oneOfEachEntered.rbx := by
  rintro ⟨fuel,r,hr,-,-,-,hauxv⟩
  have hwalk : start oneOfEachEntered.frame.store 2 oneOfEachEntered.frame.rsp =
      some ⟨1#64,0x7a0#64,0x7b0#64,0x7c0#64⟩ := by decide +kernel
  have hrbx : oneOfEachEntered.rbx = 0x7c8#64 := by decide +kernel
  rw [start_unique hr hwalk,hrbx] at hauxv
  exact absurd hauxv (by decide)

end WinterLily.Entry
