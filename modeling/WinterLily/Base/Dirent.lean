import WinterLily.Base.Bytes

/-! Records of varying length one after the other in a buffer, each with its length and a name that
a NUL ends: the entries of a directory as `getdents64` writes them. -/
namespace WinterLily.Dirent
open WinterLily.Bytes (toLE ofLE ofLE_toLE toLE_length)

/-- An entry: the bytes of `d_ino` and `d_off`, its type, the name, and what fills it up after the
NUL. Its length fits in `d_reclen`. -/
structure Record where
  head : List UInt8
  kind : UInt8
  name : List UInt8
  pad : List UInt8
  head_length : head.length = 16
  name_zero : 0 ∉ name
  short : 20+name.length+pad.length < 2^16

namespace Record

def size (r : Record) : ℕ := 20+r.name.length+r.pad.length

def bytes (r : Record) : List UInt8 :=
  r.head++((toLE 2 r.size).map UInt8.ofBitVec++r.kind::(r.name++0::r.pad))

lemma length_bytes (r : Record) : r.bytes.length = r.size := by
  simp only [bytes,size,List.length_append,List.length_map,List.length_cons,toLE_length,
    r.head_length]
  omega

lemma size_pos (r : Record) : 0 < r.size := by
  unfold size
  omega

lemma length_le_flatMap (records : List Record) :
    records.length ≤ (records.flatMap bytes).length := by
  induction records with
  | nil => exact le_rfl
  | cons r records ih =>
    have hpos := r.size_pos
    rw [List.flatMap_cons,List.length_append,List.length_cons,r.length_bytes]
    omega

end Record

/-- `d_reclen` of the record that the buffer begins with. -/
def reclen (buf : List UInt8) : ℕ := ofLE (((buf.drop 16).take 2).map UInt8.toBitVec)

/-- `d_name`, up to the NUL. -/
def name (buf : List UInt8) : List UInt8 := (buf.drop 19).takeWhile (· ≠ 0)

section Read

variable (r : Record) (rest : List UInt8)

lemma drop_head (n : ℕ) : (r.bytes++rest).drop (16+n) =
    ((toLE 2 r.size).map UInt8.ofBitVec++r.kind::(r.name++0::(r.pad++rest))).drop n := by
  rw [Record.bytes,← List.drop_drop,List.append_assoc,← r.head_length,List.drop_left]
  simp only [List.append_assoc,List.cons_append]

lemma reclen_bytes : reclen (r.bytes++rest) = r.bytes.length := by
  have hlen : ((toLE 2 r.size).map UInt8.ofBitVec).length = 2 := by simp
  have hmap : ((toLE 2 r.size).map UInt8.ofBitVec).map UInt8.toBitVec = toLE 2 r.size := by
    simp [List.map_map,Function.comp_def]
  rw [reclen,drop_head r rest 0,List.drop_zero,List.take_left' hlen,hmap,ofLE_toLE 2 r.size r.short,
    r.length_bytes]

lemma name_bytes : name (r.bytes++rest) = r.name := by
  have hlen : ((toLE 2 r.size).map UInt8.ofBitVec).length = 2 := by simp
  have hall : ∀ b ∈ r.name, decide (b ≠ 0) = true :=
    fun b hb => decide_eq_true fun h => r.name_zero (h ▸ hb)
  rw [name,drop_head r rest 3,show 3 = 2+1 from rfl,← List.drop_drop,List.drop_left' hlen,
    List.drop_one,List.tail_cons,List.takeWhile_append_of_pos hall,
    List.takeWhile_cons_of_neg (by simp),List.append_nil]

end Read

end WinterLily.Dirent
