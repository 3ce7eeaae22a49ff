import WinterLily.Entry.Stack

/-! The stack that `__call_entry_point` of `entry/x86_64.rs` leaves to the program it jumps to. -/
namespace WinterLily.Entry
open WinterLily.Stack

/-- The number of words that `__call_entry_point` writes, with the one for the alignment. -/
def written (argc numenv numaux : Word) : ℕ :=
  (argc.toNat+numenv.toNat)%2+argc.toNat+numenv.toNat+2*numaux.toNat+5

/-- No byte of the `k` words at `base` is one of the `n` words that are pushed once the two at the
stack pointer are popped. -/
def Outside (s : Frame) (n : ℕ) (base : Word) (k : ℕ) : Prop :=
  ∀ i < 8*n, ∀ j < 8*k, base+BitVec.ofNat 64 j ≠ below (s.rsp+16#64) n+BitVec.ofNat 64 i

instance (s : Frame) (n : ℕ) (base : Word) (k : ℕ) : Decidable (Outside s n base k) :=
  inferInstanceAs (Decidable (∀ i, i < 8*n → ∀ j, j < 8*k → _ ≠ _))

/-- What the program finds when it is entered. -/
structure EntryStack (e : Entered) (argc : Word) (args env aux : List Word) : Prop where
  aligned : e.frame.rsp.toNat%16 = 0
  layout : Holds e.frame.store e.frame.rsp
    (argc::(args++0#64::(env++0#64::(aux++[0#64,0#64]))))
  envAt : e.r12 = cell e.frame.rsp (args.length+2)
  auxAt : e.rbx = cell e.frame.rsp (args.length+env.length+3)

section Area

variable {s : Frame} {n k : ℕ} {base : Word}

/-- Every address is so many bytes above any other. -/
lemma add_ofNat_sub (a b : Word) : a+BitVec.ofNat 64 (b-a).toNat = b := by
  rw [BitVec.ofNat_toNat,BitVec.setWidth_eq,add_sub_cancel]

lemma Outside.spared (h : Outside s n base k) : Spared s n base k :=
  fun i hi j hj => h (8*i) (by omega) (8*j) (by omega)

/-- Words that leave room for others are not all of memory. -/
lemma Outside.length_lt (h : Outside s n base k) (hn : 0 < n) : k < 2^61 := by
  by_contra hk
  have hlt := (below (s.rsp+16#64) n-base).isLt
  refine h 0 (by omega) (below (s.rsp+16#64) n-base).toNat (by omega) ?_
  rw [add_ofNat_sub,BitVec.add_zero]

lemma Outside.area_lt (h : Outside s n base k) (hk : 0 < k) : n < 2^61 := by
  by_contra hn
  have hlt := (base-below (s.rsp+16#64) n).isLt
  refine h (base-below (s.rsp+16#64) n).toNat (by omega) 0 (by omega) ?_
  rw [add_ofNat_sub,BitVec.add_zero]

end Area

lemma padding_length_eq (argc numenv rax : Word) :
    (padding argc numenv rax).length = (argc.toNat+numenv.toNat)%2 := by
  have hparity : ((argc+numenv) &&& 1#64).toNat = (argc.toNat+numenv.toNat)%2 := by
    rw [BitVec.toNat_and,BitVec.toNat_add]
    change _ &&& 1 = _
    rw [Nat.and_one_is_mod]
    omega
  unfold padding
  split_ifs with hzero
  · rw [hzero] at hparity
    exact hparity
  · have hne : ((argc+numenv) &&& 1#64).toNat ≠ 0 := fun h => hzero (BitVec.eq_of_toNat_eq h)
    change 1 = _
    omega

/-- The words from the last pushed on. -/
lemma pushes_reverse (argc argv envp numenv auxv : Word) (s : Frame) (n : ℕ) :
    (pushes argc argv envp numenv auxv s n).reverse =
      (argc::(words s.store argv argc.toNat++0#64::(words s.store envp numenv.toNat++0#64::
        (words s.store auxv (2*n)++[0#64,0#64]))))++
          (padding argc numenv (s.store s.rsp)).reverse := by
  simp [pushes,auxPushes]

/-- An array that is not empty leaves a byte free, and without one there are few words. -/
lemma written_lt {argc argv envp numenv auxv numaux : Word} {s : Frame}
    (hargv : Outside s (written argc numenv numaux) argv argc.toNat)
    (henvp : Outside s (written argc numenv numaux) envp numenv.toNat)
    (hauxv : Outside s (written argc numenv numaux) auxv (2*numaux.toNat)) :
    written argc numenv numaux < 2^61 := by
  by_contra hbig
  have h₁ : ¬ 0 < argc.toNat := fun h => hbig (hargv.area_lt h)
  have h₂ : ¬ 0 < numenv.toNat := fun h => hbig (henvp.area_lt h)
  have h₃ : ¬ 0 < 2*numaux.toNat := fun h => hbig (hauxv.area_lt h)
  unfold written at hbig
  omega

/-- The words written are an odd number, and the stack pointer of a called function is 8 off. -/
lemma aligned_of_written {argc numenv numaux top rsp : Word} (hrsp : rsp.toNat%16 = 8)
    (htop : cell top (written argc numenv numaux) = rsp+16#64) : top.toNat%16 = 0 := by
  have hnat := congrArg BitVec.toNat htop
  rw [cell,BitVec.toNat_add,BitVec.toNat_ofNat,BitVec.toNat_add] at hnat
  change _ = (rsp.toNat+16)%2^64 at hnat
  unfold written at hnat
  omega

/-- `__call_entry_point` jumps to the entry point with the arguments, the environment and the
auxiliary vector on an aligned stack. -/
theorem call_entry_point_layout (argc argv envp numenv auxv numaux : Word) (s : Frame)
    (hrsp : s.rsp.toNat%16 = 8)
    (hargv : Outside s (written argc numenv numaux) argv argc.toNat)
    (henvp : Outside s (written argc numenv numaux) envp numenv.toNat)
    (hauxv : Outside s (written argc numenv numaux) auxv (2*numaux.toNat)) :
    (callEntryPoint argc argv envp numenv auxv numaux s).target = s.store (s.rsp+8#64) ∧
      EntryStack (callEntryPoint argc argv envp numenv auxv numaux s) argc
        (words s.store argv argc.toNat) (words s.store envp numenv.toNat)
        (words s.store auxv (2*numaux.toNat)) := by
  have hlen : (pushes argc argv envp numenv auxv s numaux.toNat).length =
      written argc numenv numaux := by
    rw [pushes_length,padding_length_eq]
    rfl
  have hpos : 0 < written argc numenv numaux := Nat.succ_pos _
  have hn := henvp.length_lt hpos
  have ha := hauxv.length_lt hpos
  have hsmall := written_lt hargv henvp hauxv
  obtain ⟨hframe,hrbx,hr12⟩ := callEntryPoint_eq hn (by omega)
    (cell_below (s.rsp+16#64) (written argc numenv numaux)) hlen.le hargv.spared henvp.spared
    hauxv.spared
  let s₀ : Frame := ⟨s.rsp+16#64,s.store⟩
  have htop := Frame.pushAll_rsp (s := s₀) (pushes argc argv envp numenv auxv s numaux.toNat)
  have hholds := Frame.pushAll_holds (s := s₀) (pushes argc argv envp numenv auxv s numaux.toNat)
    (by omega)
  rw [← hframe] at hholds htop
  have hbefore : ∀ ws vs : List Word, pushes argc argv envp numenv auxv s numaux.toNat = ws++vs →
      (s₀.pushAll ws).rsp =
        cell (callEntryPoint argc argv envp numenv auxv numaux s).frame.rsp vs.length := by
    intro ws vs hsplit
    rw [hframe,hsplit]
    exact Frame.pushAll_append_rsp ws vs
  refine ⟨rfl,?_,?_,?_,?_⟩
  · rw [hlen] at htop
    exact aligned_of_written hrsp htop
  · rw [pushes_reverse] at hholds
    exact (holds_append.mp hholds).1
  · rw [hr12,hbefore _ ([0#64]++(words s.store argv argc.toNat).reverse++[argc]) (by simp [pushes])]
    simp
  · rw [hrbx,hbefore _ ([0#64]++(words s.store envp numenv.toNat).reverse++[0#64]++
      (words s.store argv argc.toNat).reverse++[argc]) (by simp [pushes])]
    congr 1
    simp
    omega

/-- Two arguments, one variable and one entry of the auxiliary vector. -/
def twoArguments : Store := fun a =>
  if a = 0x1000#64 then 0x70#64
  else if a = 0x1008#64 then 0x71#64
  else if a = 0x2000#64 then 0x78#64
  else if a = 0x3000#64 then 3#64
  else if a = 0x3008#64 then 0x400#64
  else if a = 0x810#64 then 0x5000#64
  else 0#64

theorem call_entry_point_layout_two :
    (callEntryPoint 2#64 0x1000#64 0x2000#64 1#64 0x3000#64 1#64 ⟨0x808#64,twoArguments⟩).target =
        0x5000#64 ∧
      EntryStack (callEntryPoint 2#64 0x1000#64 0x2000#64 1#64 0x3000#64 1#64
        ⟨0x808#64,twoArguments⟩) 2#64 [0x70#64,0x71#64] [0x78#64] [3#64,0x400#64] :=
  call_entry_point_layout 2#64 0x1000#64 0x2000#64 1#64 0x3000#64 1#64 ⟨0x808#64,twoArguments⟩
    rfl (by decide +kernel) (by decide +kernel) (by decide +kernel)

end WinterLily.Entry
