import Mathlib.Data.BitVec
import Mathlib.Data.List.Basic
import Mathlib.Logic.Function.Basic

/-! A store of eight-byte cells with a stack that grows down in it. Addresses wrap at the word size;
all of those in play are a multiple of eight apart, so two of them name the same cell or disjoint
ones. -/
namespace WinterLily.Stack

abbrev Word := BitVec 64

abbrev Store := Word → Word

/-- The address of the cell `i` places above `a`. -/
def cell (a : Word) (i : ℕ) : Word := a+BitVec.ofNat 64 (8*i)

@[simp] theorem cell_zero (a : Word) : cell a 0 = a := by simp [cell]

theorem cell_cell (a : Word) (i j : ℕ) : cell (cell a i) j = cell a (i+j) := by
  rw [cell,cell,cell,BitVec.add_assoc,← BitVec.ofNat_add,Nat.mul_add]

theorem cell_one (a : Word) : cell a 1 = a+8#64 := rfl

/-- Cells of one run of addresses that does not go round are distinct. -/
theorem cell_inj {a : Word} {i j : ℕ} (hi : i < 2^61) (hj : j < 2^61) (h : cell a i = cell a j) :
    i = j := by
  unfold cell at h
  have hoff : BitVec.ofNat 64 (8*i) = BitVec.ofNat 64 (8*j) := add_left_cancel h
  have hnat := congrArg BitVec.toNat hoff
  rw [BitVec.toNat_ofNat,BitVec.toNat_ofNat,Nat.mod_eq_of_lt (by omega),
    Nat.mod_eq_of_lt (by omega)] at hnat
  omega

/-- The cells from `a` on hold the words of the list. -/
def Holds (m : Store) : Word → List Word → Prop
  | _,[] => True
  | a,w::ws => m a = w ∧ Holds m (cell a 1) ws

variable {m n : Store} {a : Word} {ws vs : List Word}

theorem holds_append : Holds m a (ws++vs) ↔ Holds m a ws ∧ Holds m (cell a ws.length) vs := by
  induction ws generalizing a with
  | nil => simp [Holds]
  | cons w ws ih =>
    rw [List.cons_append,Holds,Holds,ih,cell_cell,List.length_cons,Nat.add_comm 1,and_assoc]

theorem Holds.congr (h : Holds m a ws) (hn : ∀ i < ws.length, n (cell a i) = m (cell a i)) :
    Holds n a ws := by
  induction ws generalizing a with
  | nil => trivial
  | cons w ws ih =>
    refine ⟨?_,ih h.2 fun i hi => ?_⟩
    · have hfirst := hn 0 (Nat.succ_pos _)
      rw [cell_zero] at hfirst
      rw [hfirst]
      exact h.1
    · rw [cell_cell,Nat.add_comm]
      exact hn (i+1) (Nat.succ_lt_succ hi)

/-- What the cells hold is what is read from them. -/
theorem holds_iff : Holds m a ws ↔ (List.range ws.length).map (fun i => m (cell a i)) = ws := by
  induction ws generalizing a with
  | nil => simp [Holds]
  | cons w ws ih =>
    have hshift : (fun i => m (cell a (i+1))) = fun i => m (cell (cell a 1) i) := by
      funext i
      rw [cell_cell,Nat.add_comm]
    rw [Holds,ih,List.length_cons,List.range_succ_eq_map,List.map_cons,List.map_map,
      Function.comp_def]
    simp only [Nat.succ_eq_add_one,hshift,cell_zero,List.cons.injEq]

/-- The address `k` cells below `top`. -/
def below (top : Word) (k : ℕ) : Word := top-BitVec.ofNat 64 (8*k)

theorem cell_below (top : Word) (k : ℕ) : cell (below top k) k = top := BitVec.sub_add_cancel _ _

/-- A stack pointer and the store it points into. -/
structure Frame where
  rsp : Word
  store : Store

namespace Frame

def push (s : Frame) (v : Word) : Frame := ⟨s.rsp-8#64,Function.update s.store (s.rsp-8#64) v⟩

def pushAll (s : Frame) (vs : List Word) : Frame := vs.foldl push s

variable {s : Frame} {v : Word}

theorem pushAll_append : s.pushAll (ws++vs) = (s.pushAll ws).pushAll vs := List.foldl_append

theorem pushAll_snoc : s.pushAll (vs++[v]) = (s.pushAll vs).push v := pushAll_append

theorem push_rsp : cell (s.push v).rsp 1 = s.rsp := BitVec.sub_add_cancel _ _

theorem pushAll_rsp (vs : List Word) : cell (s.pushAll vs).rsp vs.length = s.rsp := by
  induction vs generalizing s with
  | nil => exact cell_zero _
  | cons v vs ih =>
    change cell ((s.push v).pushAll vs).rsp (vs.length+1) = _
    rw [← cell_cell,ih,push_rsp]

/-- Where the stack pointer was before the last words were pushed. -/
theorem pushAll_append_rsp (ws vs : List Word) :
    (s.pushAll ws).rsp = cell (s.pushAll (ws++vs)).rsp vs.length := by
  rw [pushAll_append,pushAll_rsp]

/-- The last word pushed is the first above the stack pointer. -/
theorem pushAll_holds (vs : List Word) (h : vs.length < 2^61) :
    Holds (s.pushAll vs).store (s.pushAll vs).rsp vs.reverse := by
  induction vs using List.reverseRecOn with
  | nil => trivial
  | append_singleton vs v ih =>
    rw [List.length_append,List.length_singleton] at h
    rw [pushAll_append,List.reverse_append]
    change Holds ((s.pushAll vs).push v).store ((s.pushAll vs).push v).rsp (v::vs.reverse)
    refine ⟨Function.update_self _ _ _,?_⟩
    rw [push_rsp]
    refine (ih (by omega)).congr fun i hi => Function.update_of_ne (fun hc => ?_) _ _
    rw [List.length_reverse] at hi
    -- the new cell is one below the ones that were there
    have hself : cell ((s.pushAll vs).push v).rsp (1+i) = cell ((s.pushAll vs).push v).rsp 0 := by
      rw [← cell_cell,push_rsp,cell_zero]
      exact hc
    have := cell_inj (by omega) (by omega) hself
    omega

/-- Pushing within `k` cells above `low` leaves everything else. -/
theorem pushAll_frame {low : Word} {k : ℕ} (hs : cell low k = s.rsp) (hk : vs.length ≤ k)
    (ha : ∀ i < k, a ≠ cell low i) : (s.pushAll vs).store a = s.store a := by
  induction vs generalizing s k with
  | nil => rfl
  | cons v vs ih =>
    rw [List.length_cons] at hk
    have hnext : cell low (k-1) = (s.push v).rsp := by
      change _ = s.rsp-8#64
      rw [← hs,← Nat.sub_add_cancel (show 1 ≤ k by omega),Nat.add_sub_cancel,← cell_cell,cell_one]
      exact (add_sub_cancel_right _ _).symm
    have hpush : (s.push v).store a = s.store a := by
      refine Function.update_of_ne (fun hc => ?_) _ _
      exact ha (k-1) (by omega) (hc.trans hnext.symm)
    change ((s.push v).pushAll vs).store a = _
    rw [ih hnext (by omega) fun i hi => ha i (by omega),hpush]

end Frame

end WinterLily.Stack
