import WinterLily.Info.Request

/-! The CPU features: `init_cpuid_features` of `wl-ld-lilium/src/detect/x86.rs` builds the array that
`test_x86_features` of `wl-helpers/src/detect/x86.rs` reads, and `ARCH_TYPE_VERSION` of
`wl-usi-base/src/info.rs` takes the level of the architecture from it. Beside them, what the array is
documented to hold and where a processor reports the features. -/
namespace WinterLily.CpuFeatures
open WinterLily.Info
open WinterLily.Access (Thread)

section Program

structure CpuidResult where
  eax : BitVec 32
  ebx : BitVec 32
  ecx : BitVec 32
  edx : BitVec 32
  deriving DecidableEq, Repr

/-- `__cpuid_count`, by leaf and sub-leaf; `__cpuid` has sub-leaf 0. -/
abbrev Cpuid := BitVec 32 → BitVec 32 → CpuidResult

/-- `target_pointer_width`. -/
inductive PointerWidth
  | w32
  | w64
  deriving DecidableEq, Repr

abbrev FeatureArray := Vector (BitVec 32) 48

/-- The bits of `cpuid[eax=0x80000001].ecx` that are cleared. -/
def extendedMask : PointerWidth → BitVec 32
  | .w32 => 0x1BFDFF#32
  | .w64 => 0x1BF5FF#32

def initCpuidFeatures (width : PointerWidth) (cpuid : Cpuid) : FeatureArray :=
  let eax1 := cpuid 1#32 0#32
  let eax7ecx0 := cpuid 7#32 0#32
  let eax7ecx1 := cpuid 7#32 1#32
  let eax7ecx2 := cpuid 7#32 2#32
  let eax80000001 := cpuid 0x80000001#32 0#32
  let eax80000001EcxVal := eax80000001.ecx &&& ~~~extendedMask width
  let eax24ecx0 :=
    if eax7ecx1.edx &&& (1#32 <<< 19) ≠ 0#32 then cpuid 0x24#32 0#32 else ⟨0#32,0#32,0#32,0#32⟩
  let eax0d :=
    if eax1.ecx &&& (1#32 <<< 26) ≠ 0#32 then (cpuid 0x0D#32 0#32,cpuid 0x0D#32 1#32)
    else (⟨0#32,0#32,0#32,0#32⟩,⟨0#32,0#32,0#32,0#32⟩)
  #v[eax1.ecx,eax1.edx,eax7ecx0.ecx,eax7ecx1.edx,eax7ecx0.ebx,eax7ecx1.eax,eax7ecx1.ecx,
    eax7ecx1.edx,eax7ecx1.ebx,eax7ecx2.eax,eax7ecx2.ecx,eax7ecx2.edx,0#32,0#32,eax80000001EcxVal,
    eax80000001.edx,
    eax24ecx0.eax,0#32,0#32,0#32,0#32,0#32,0#32,0#32,0#32,0#32,0#32,0#32,0#32,0#32,0#32,0#32,
    eax0d.1.eax,eax0d.1.edx,eax0d.1.ecx,eax0d.2.eax,0#32,0#32,0#32,0#32,0#32,0#32,0#32,0#32,0#32,
    0#32,0#32,0#32]

/-- The features that the levels are tested for. -/
inductive Feature
  | cmpxchg16b
  | lahfLm
  | popcnt
  | sse3
  | sse41
  | sse42
  | ssse3
  | avx
  | avx2
  | bmi1
  | bmi2
  | f16c
  | fma
  | abm
  | movbe
  | osxsave
  | avx512f
  | avx512bw
  | avx512cd
  | avx512dq
  | avx512vl
  deriving DecidableEq, Repr

/-- `__x86_feature_to_bit`: the word of the array and the bit in it. -/
def x86FeatureToBit : Feature → Fin 48 × ℕ
  | .cmpxchg16b => (0,16)
  | .lahfLm => (14,0)
  | .popcnt => (0,23)
  | .sse3 => (0,0)
  | .sse41 => (0,19)
  | .sse42 => (0,20)
  | .ssse3 => (0,9)
  | .avx => (0,28)
  | .avx2 => (4,5)
  | .bmi1 => (4,3)
  | .bmi2 => (4,8)
  | .f16c => (0,29)
  | .fma => (0,12)
  | .abm => (14,5)
  | .movbe => (0,22)
  | .osxsave => (0,27)
  | .avx512f => (4,16)
  | .avx512bw => (4,30)
  | .avx512cd => (4,28)
  | .avx512dq => (4,17)
  | .avx512vl => (4,31)

/-- The target features of a compilation. The compiler has none of the names `lahf_lm`, `abm` and
`osxsave`. -/
structure Target where
  feature : Feature → Bool
  unknown : ∀ f ∈ [.lahfLm,.abm,.osxsave], feature f = false

/-- `is_x86_feature_enabled`. -/
def isX86FeatureEnabled (target : Target) (f : Feature) : Bool := target.feature f

/-- The bit of the array that is tested for a feature. -/
def featureBit (arr : FeatureArray) (f : Feature) : Bool :=
  arr.get (x86FeatureToBit f).1 &&& (1#32 <<< (x86FeatureToBit f).2) ≠ 0#32

/-- `test_x86_features`. -/
def testX86Features (target : Target) (arr : FeatureArray) (fs : List Feature) : Bool :=
  fs.all (isX86FeatureEnabled target) ||
    fs.all fun f => isX86FeatureEnabled target f || featureBit arr f

def level2 : List Feature := [.cmpxchg16b,.lahfLm,.popcnt,.sse3,.sse41,.sse42,.ssse3]

def level3 : List Feature := [.avx,.avx2,.bmi1,.bmi2,.f16c,.fma,.abm,.movbe,.osxsave]

def level4 : List Feature := [.avx512f,.avx512bw,.avx512cd,.avx512dq,.avx512vl]

/-- `march_ver` of `ARCH_TYPE_VERSION`. -/
def marchVer (target : Target) (arr : FeatureArray) : BitVec 32 :=
  if testX86Features target arr level2 then
    if testX86Features target arr level3 then
      if testX86Features target arr level4 then 4#32 else 3#32
    else 2#32
  else 1#32

end Program

section Documentation

inductive Register
  | eax
  | ebx
  | ecx
  | edx
  deriving DecidableEq, Repr

def CpuidResult.get (r : CpuidResult) : Register → BitVec 32
  | .eax => r.eax
  | .ebx => r.ebx
  | .ecx => r.ecx
  | .edx => r.edx

/-- What the layout comment says of a word. `extended` is `cpuid[eax=0x80000001].ecx` with the
differences of its note. -/
inductive Content
  | register (leaf subleaf : BitVec 32) (r : Register)
  | reserved
  | extended
  deriving DecidableEq, Repr

/-- The lines of the layout comment. -/
def layout : List (Fin 48 × Content) :=
  [(0,.register 1#32 0#32 .ecx),(1,.register 1#32 0#32 .edx),
    (2,.register 7#32 0#32 .ecx),(3,.register 7#32 0#32 .edx),(4,.register 7#32 0#32 .ebx),
    (5,.register 7#32 1#32 .eax),(6,.register 7#32 1#32 .ecx),(7,.register 7#32 1#32 .edx),
    (8,.register 7#32 1#32 .ebx),(9,.register 7#32 2#32 .eax),(10,.register 7#32 2#32 .ecx),
    (11,.register 7#32 2#32 .edx),(12,.reserved),(13,.reserved),(14,.extended),
    (15,.register 0x80000001#32 0#32 .edx),(16,.register 0x24#32 0#32 .ebx),
    (32,.register 0x0D#32 0#32 .eax),(33,.register 0x0D#32 0#32 .edx),
    (34,.register 0x0D#32 0#32 .ecx),(35,.register 0x0D#32 1#32 .eax)]

/-- The leaves that only some processors have, by AVX10 and by XSAVE. -/
def HasLeaf (cpuid : Cpuid) (leaf : BitVec 32) : Prop :=
  (leaf = 0x24#32 → (cpuid 7#32 1#32).edx.getLsbD 19 = true) ∧
    (leaf = 0x0D#32 → (cpuid 1#32 0#32).ecx.getLsbD 26 = true)

instance (cpuid : Cpuid) (leaf : BitVec 32) : Decidable (HasLeaf cpuid leaf) :=
  inferInstanceAs (Decidable (_ ∧ _))

/-- The bits of word 14 that the note has as 0. -/
def notedClear : List ℕ := [0,1,2,3,4,5,6,7,8,9,10,12,13,14,15,16,17,23,24]

/-- Word 14 as its note has it. A process with pointers of 32 bits may find bit 11 clear; what the note
says of the AMD K6, which has no 64-bit mode, does not come up. -/
def Noted (width : PointerWidth) (ecx word : BitVec 32) : Prop :=
  ∀ i < 32, if i ∈ notedClear then word.getLsbD i = false
    else word.getLsbD i = ecx.getLsbD i ∨ width = .w32 ∧ i = 11 ∧ word.getLsbD i = false

def Holds (width : PointerWidth) (cpuid : Cpuid) (word : BitVec 32) : Content → Prop
  | .register leaf subleaf r => HasLeaf cpuid leaf → word = (cpuid leaf subleaf).get r
  | .reserved => word = 0#32
  | .extended => Noted width (cpuid 0x80000001#32 0#32).ecx word

/-- Every word that the comment lists holds what it names. -/
def Documented (width : PointerWidth) (cpuid : Cpuid) (arr : FeatureArray) : Prop :=
  ∀ line ∈ layout, Holds width cpuid (arr.get line.1) line.2

/-- Where a processor reports a feature: leaf, sub-leaf, register and bit. -/
def Feature.location : Feature → (BitVec 32 × BitVec 32) × Register × ℕ
  | .cmpxchg16b => ((1#32,0#32),.ecx,13)
  | .lahfLm => ((0x80000001#32,0#32),.ecx,0)
  | .popcnt => ((1#32,0#32),.ecx,23)
  | .sse3 => ((1#32,0#32),.ecx,0)
  | .sse41 => ((1#32,0#32),.ecx,19)
  | .sse42 => ((1#32,0#32),.ecx,20)
  | .ssse3 => ((1#32,0#32),.ecx,9)
  | .avx => ((1#32,0#32),.ecx,28)
  | .avx2 => ((7#32,0#32),.ebx,5)
  | .bmi1 => ((7#32,0#32),.ebx,3)
  | .bmi2 => ((7#32,0#32),.ebx,8)
  | .f16c => ((1#32,0#32),.ecx,29)
  | .fma => ((1#32,0#32),.ecx,12)
  | .abm => ((0x80000001#32,0#32),.ecx,5)
  | .movbe => ((1#32,0#32),.ecx,22)
  | .osxsave => ((1#32,0#32),.ecx,27)
  | .avx512f => ((7#32,0#32),.ebx,16)
  | .avx512bw => ((7#32,0#32),.ebx,30)
  | .avx512cd => ((7#32,0#32),.ebx,28)
  | .avx512dq => ((7#32,0#32),.ebx,17)
  | .avx512vl => ((7#32,0#32),.ebx,31)

/-- The processor reports the feature. -/
def reports (cpuid : Cpuid) (f : Feature) : Bool :=
  ((cpuid f.location.1.1 f.location.1.2).get f.location.2.1).getLsbD f.location.2.2

/-- The features that are listed for a level beyond those of the one below. -/
def listed : ℕ → List Feature
  | 2 => level2
  | 3 => level3
  | 4 => level4
  | _ => []

/-- All features of the level are reported. -/
def Supports (cpuid : Cpuid) (level : ℕ) : Prop :=
  ∀ l ≤ level, ∀ f ∈ listed l, reports cpuid f = true

/-- The highest level that the processor supports. -/
structure Highest (cpuid : Cpuid) (level : ℕ) : Prop where
  pos : 1 ≤ level
  le_four : level ≤ 4
  supported : Supports cpuid level
  greatest : ∀ l ≤ 4, Supports cpuid l → l ≤ level

end Documentation

section Words

variable (width : PointerWidth) (cpuid : Cpuid)

/-- A word under a mask of one bit. -/
lemma and_bit_ne_zero_iff (word : BitVec 32) {bit : ℕ} (hbit : bit < 32) :
    word &&& (1#32 <<< bit) ≠ 0#32 ↔ word.getLsbD bit = true := by
  have hne : BitVec.twoPow 32 bit ≠ 0#32 := by
    intro hzero
    have hget := congrArg (fun w => w.getLsbD bit) hzero
    simp [hbit] at hget
  rw [← BitVec.twoPow_eq,BitVec.and_twoPow]
  cases word.getLsbD bit <;> simp [hne]

/-- The bits that the mask and the note disagree about. -/
def disputed : List ℕ := [9,19,20,23,24]

lemma mask_differs : ∀ i ∈ disputed, i < 32 ∧
    (i ∈ notedClear ∧ (extendedMask width).getLsbD i = false ∨
      i ∉ notedClear ∧ i ≠ 11 ∧ (extendedMask width).getLsbD i = true) := by
  cases width <;> decide

lemma mask_agrees : ∀ i < 32, i ∉ disputed →
    i ∈ notedClear ∧ (extendedMask width).getLsbD i = true ∨
      i ∉ notedClear ∧ ((extendedMask width).getLsbD i = false ∨
        width = .w32 ∧ i = 11 ∧ (extendedMask width).getLsbD i = true) := by
  cases width <;> decide

lemma masked_getLsbD (ecx : BitVec 32) {i : ℕ} (hi : i < 32) :
    (ecx &&& ~~~extendedMask width).getLsbD i =
      (ecx.getLsbD i && !(extendedMask width).getLsbD i) := by
  rw [BitVec.getLsbD_and,BitVec.getLsbD_not,decide_eq_true hi,Bool.true_and]

/-- The mask is the one of the note up to five bits. -/
lemma noted_masked_iff (ecx : BitVec 32) : Noted width ecx (ecx &&& ~~~extendedMask width) ↔
    ∀ i ∈ disputed, ecx.getLsbD i = false := by
  constructor
  · intro h i hi
    obtain ⟨hlt,⟨hclear,hmask⟩ | ⟨hkept,hne,hmask⟩⟩ := mask_differs width i hi
    · have hnoted := h i hlt
      rw [if_pos hclear,masked_getLsbD width ecx hlt,hmask] at hnoted
      simpa using hnoted
    · have hnoted := h i hlt
      rw [if_neg hkept,masked_getLsbD width ecx hlt,hmask] at hnoted
      simpa [hne] using hnoted
  · intro h i hi
    rw [masked_getLsbD width ecx hi]
    by_cases hdisputed : i ∈ disputed
    · simp [h i hdisputed]
    · obtain ⟨hclear,hmask⟩ | ⟨hkept,hmask | ⟨hwidth,heleven,hmask⟩⟩ :=
        mask_agrees width i hi hdisputed
      · simp [hclear,hmask]
      · simp [hkept,hmask]
      · rw [if_neg hkept,hmask]
        exact .inr ⟨hwidth,heleven,Bool.and_false _⟩

lemma avx10_word (h : HasLeaf cpuid 0x24#32) :
    (initCpuidFeatures width cpuid).get 16 = (cpuid 0x24#32 0#32).eax := by
  have hbit := (and_bit_ne_zero_iff (cpuid 7#32 1#32).edx (show 19 < 32 by decide)).mpr (h.1 rfl)
  exact congrArg CpuidResult.eax (if_pos hbit)

lemma xsave_words (h : HasLeaf cpuid 0x0D#32) :
    (initCpuidFeatures width cpuid).get 32 = (cpuid 0x0D#32 0#32).eax ∧
      (initCpuidFeatures width cpuid).get 33 = (cpuid 0x0D#32 0#32).edx ∧
      (initCpuidFeatures width cpuid).get 34 = (cpuid 0x0D#32 0#32).ecx ∧
      (initCpuidFeatures width cpuid).get 35 = (cpuid 0x0D#32 1#32).eax := by
  have hbit := (and_bit_ne_zero_iff (cpuid 1#32 0#32).ecx (show 26 < 32 by decide)).mpr (h.2 rfl)
  have hleaves : (if (cpuid 1#32 0#32).ecx &&& (1#32 <<< 26) ≠ 0#32 then
      (cpuid 0x0D#32 0#32,cpuid 0x0D#32 1#32)
    else (⟨0#32,0#32,0#32,0#32⟩,⟨0#32,0#32,0#32,0#32⟩)) =
      (cpuid 0x0D#32 0#32,cpuid 0x0D#32 1#32) := if_pos hbit
  exact ⟨congrArg (·.1.eax) hleaves,congrArg (·.1.edx) hleaves,congrArg (·.1.ecx) hleaves,
    congrArg (·.2.eax) hleaves⟩

/-- The words are as documented when the registers that are mixed up in words 3 and 16 are the same,
and the bits that the mask of word 14 treats otherwise than its note are clear. -/
lemma documented_iff : Documented width cpuid (initCpuidFeatures width cpuid) ↔
    (cpuid 7#32 1#32).edx = (cpuid 7#32 0#32).edx ∧
      (HasLeaf cpuid 0x24#32 → (cpuid 0x24#32 0#32).eax = (cpuid 0x24#32 0#32).ebx) ∧
      ∀ i ∈ disputed, (cpuid 0x80000001#32 0#32).ecx.getLsbD i = false := by
  constructor
  · intro h
    refine ⟨?_,fun hleaf => ?_,?_⟩
    · exact h (3,.register 7#32 0#32 .edx) (by decide) ⟨nofun,nofun⟩
    · rw [← avx10_word width cpuid hleaf]
      exact h (16,.register 0x24#32 0#32 .ebx) (by decide) hleaf
    · exact (noted_masked_iff width _).mp (h (14,.extended) (by decide))
  · rintro ⟨hthree,hsixteen,hfourteen⟩
    simp only [Documented,layout,List.forall_mem_cons,List.not_mem_nil,false_imp_iff,
      implies_true,and_true]
    exact ⟨fun _ => rfl,fun _ => rfl,fun _ => rfl,fun _ => hthree,fun _ => rfl,fun _ => rfl,
      fun _ => rfl,fun _ => rfl,fun _ => rfl,fun _ => rfl,fun _ => rfl,fun _ => rfl,rfl,rfl,
      (noted_masked_iff width _).mpr hfourteen,fun _ => rfl,
      fun hleaf => (avx10_word width cpuid hleaf).trans (hsixteen hleaf),
      fun hleaf => (xsave_words width cpuid hleaf).1,
      fun hleaf => (xsave_words width cpuid hleaf).2.1,
      fun hleaf => (xsave_words width cpuid hleaf).2.2.1,
      fun hleaf => (xsave_words width cpuid hleaf).2.2.2⟩

end Words

section Bits

variable (width : PointerWidth) (cpuid : Cpuid)

lemma featureBit_eq_getLsbD (arr : FeatureArray) (f : Feature) :
    featureBit arr f = (arr.get (x86FeatureToBit f).1).getLsbD (x86FeatureToBit f).2 := by
  have hlt : (x86FeatureToBit f).2 < 32 := by cases f <;> decide
  rw [Bool.eq_iff_iff,featureBit,decide_eq_true_iff,and_bit_ne_zero_iff _ hlt]

lemma extended_getLsbD_of_masked {i : ℕ} (hi : i < 32)
    (hmask : (extendedMask width).getLsbD i = true) :
    ((initCpuidFeatures width cpuid).get 14).getLsbD i = false := by
  change ((cpuid 0x80000001#32 0#32).ecx &&& ~~~extendedMask width).getLsbD i = false
  rw [masked_getLsbD width _ hi,hmask,Bool.not_true,Bool.and_false]

/-- What the bits that are tested come to: the one of `cmpxchg16b` is another bit, and those of
`lahf_lm` and `abm` are masked out. -/
lemma featureBit_eq (f : Feature) : featureBit (initCpuidFeatures width cpuid) f =
    match f with
    | .cmpxchg16b => (cpuid 1#32 0#32).ecx.getLsbD 16
    | .lahfLm | .abm => false
    | f => reports cpuid f := by
  rw [featureBit_eq_getLsbD]
  cases f with
  | lahfLm | abm =>
    exact extended_getLsbD_of_masked width cpuid (by decide) (by cases width <;> decide)
  | _ => rfl

/-- The bits that are tested are those that the processor reports. -/
def BitsReported (cpuid : Cpuid) (arr : FeatureArray) : Prop :=
  ∀ f, featureBit arr f = reports cpuid f

lemma bitsReported_iff : BitsReported cpuid (initCpuidFeatures width cpuid) ↔
    (cpuid 1#32 0#32).ecx.getLsbD 16 = reports cpuid .cmpxchg16b ∧
      reports cpuid .lahfLm = false ∧ reports cpuid .abm = false := by
  simp only [BitsReported,featureBit_eq]
  constructor
  · intro h
    exact ⟨h .cmpxchg16b,(h .lahfLm).symm,(h .abm).symm⟩
  · rintro ⟨hcmpxchg16b,hlahf,habm⟩ f
    cases f with
    | cmpxchg16b => exact hcmpxchg16b
    | lahfLm => exact hlahf.symm
    | abm => exact habm.symm
    | _ => rfl

end Bits

section Level

variable (width : PointerWidth) (cpuid : Cpuid) (target : Target)

/-- `lahf_lm` is never found, and with it no level beyond the first. -/
lemma marchVer_eq_one : marchVer target (initCpuidFeatures width cpuid) = 1#32 := by
  have henabled : isX86FeatureEnabled target .lahfLm = false := target.unknown _ (by decide)
  have hbit : featureBit (initCpuidFeatures width cpuid) .lahfLm = false :=
    featureBit_eq width cpuid .lahfLm
  have htest : testX86Features target (initCpuidFeatures width cpuid) level2 = false := by
    simp [testX86Features,level2,henabled,hbit]
  rw [marchVer,htest]
  rfl

lemma highest_one_iff : Highest cpuid 1 ↔ ¬ Supports cpuid 2 := by
  constructor
  · intro h h2
    exact absurd (h.greatest 2 (by decide) h2) (by decide)
  · intro h
    refine ⟨le_rfl,by decide,fun l hl f hf => ?_,fun l _ hl => ?_⟩
    · obtain rfl | rfl : l = 0 ∨ l = 1 := by omega
      · cases hf
      · cases hf
    · by_contra hlt
      exact h fun l' hl' => hl l' (by omega)

/-- The documented words, the bits and the level: each is right under a condition of its own, and the
level only for a processor that is of the lowest. -/
theorem cpu_features_iff :
    (Documented width cpuid (initCpuidFeatures width cpuid) ↔
      (cpuid 7#32 1#32).edx = (cpuid 7#32 0#32).edx ∧
        (HasLeaf cpuid 0x24#32 → (cpuid 0x24#32 0#32).eax = (cpuid 0x24#32 0#32).ebx) ∧
        ∀ i ∈ disputed, (cpuid 0x80000001#32 0#32).ecx.getLsbD i = false) ∧
      (BitsReported cpuid (initCpuidFeatures width cpuid) ↔
        (cpuid 1#32 0#32).ecx.getLsbD 16 = reports cpuid .cmpxchg16b ∧
          reports cpuid .lahfLm = false ∧ reports cpuid .abm = false) ∧
      (Highest cpuid (marchVer target (initCpuidFeatures width cpuid)).toNat ↔
        ¬ Supports cpuid 2) := by
  refine ⟨documented_iff width cpuid,bitsReported_iff width cpuid,?_⟩
  rw [marchVer_eq_one]
  exact highest_one_iff cpuid

/-- A processor that reports every feature. -/
def everything : Cpuid := fun leaf subleaf =>
  if leaf = 1#32 then ⟨0#32,0#32,0xFFFEFFFF#32,0xFFFFFFFF#32⟩
  else if leaf = 7#32 ∧ subleaf = 1#32 then ⟨0#32,0#32,0#32,0x00080000#32⟩
  else ⟨0#32,0xFFFFFFFF#32,0xFFFFFFFF#32,0xFFFFFFFF#32⟩

/-- A processor that is of level 4 is reported as one of level 1; words 3 and 16 have the content of
other registers, and the bits for `cmpxchg16b`, `lahf_lm` and `abm` are clear. -/
theorem level_four_missed :
    Highest everything 4 ∧
      (∀ width target, marchVer target (initCpuidFeatures width everything) = 1#32) ∧
      ((initCpuidFeatures .w64 everything).get 3 = 0x00080000#32 ∧
        (everything 7#32 0#32).edx = 0xFFFFFFFF#32) ∧
      (HasLeaf everything 0x24#32 ∧ (initCpuidFeatures .w64 everything).get 16 = 0#32 ∧
        (everything 0x24#32 0#32).ebx = 0xFFFFFFFF#32) ∧
      ∀ f ∈ [Feature.cmpxchg16b,.lahfLm,.abm],
        featureBit (initCpuidFeatures .w64 everything) f = false ∧ reports everything f = true := by
  refine ⟨⟨by decide,le_rfl,?_,fun l hl _ => hl⟩,fun width target => ?_,by decide,by decide,by decide⟩
  · intro l _ f _
    cases f <;> rfl
  · exact marchVer_eq_one width everything target

end Level

section Request

variable {S : System} {E : Effects Run} {req : SysInfoRequest}

lemma processRequest_archInfo (ha : Accepted req) (hty : req.head.ty = S.types.archInfo) :
    processRequest S E req = answerArchInfo S E req := by
  have hdistinct := S.types.distinct
  have hosver : req.head.ty ≠ S.types.osver := by
    rw [hty]
    intro h
    simp [h] at hdistinct
  have hkvendor : req.head.ty ≠ S.types.kvendor := by
    rw [hty]
    intro h
    simp [h] at hdistinct
  unfold processRequest
  simp only [ha.valid,ha.heeded,ne_eq,not_true_eq_false,if_false,if_neg hosver,if_neg hkvendor,
    if_pos hty]

/-- On a system that takes its version of the architecture from the features, every answer to a
request for it has level 1, whatever the processor. -/
theorem archInfo_answered_one {width : PointerWidth} {cpuid : Cpuid} {target : Target}
    (hS : S.archVersion = marchVer target (initCpuidFeatures width cpuid)) (ha : Accepted req)
    (hty : req.head.ty = S.types.archInfo) {t u : Thread} {r : Result} {req' : SysInfoRequest}
    (h : processRequest S E req t = .returned (r,req') u) :
    req'.archInfo.archVersion = 1#32 := by
  rw [processRequest_archInfo ha hty] at h
  obtain ⟨_,_,-,h⟩ := Run.bind_eq_returned.mp h
  obtain ⟨_,_,-,h⟩ := Run.bind_eq_returned.mp h
  obtain ⟨_,_,-,h⟩ := Run.bind_eq_returned.mp h
  cases h
  exact hS.trans (marchVer_eq_one width cpuid target)

end Request

end WinterLily.CpuFeatures
