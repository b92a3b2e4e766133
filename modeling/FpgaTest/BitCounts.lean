import Mathlib.Data.BitVec
import Mathlib.Data.List.Count
import Mathlib.Tactic

/-!
# Ones, transitions and disparity of a word

What a line code counts in the words it sends: the ones, the places where two
neighbouring bits differ, and by how much the ones outnumber the zeros. The
width is arbitrary. A word whose bits are built one from the other by exclusive
or has a transition for every one of its differences.
-/
namespace FpgaTest.BitCounts

variable {w : ℕ}

def ones (u : BitVec w) : ℕ := (List.range w).countP u.getLsbD

/-- Places where a bit differs from the following one. -/
def transitions (u : BitVec w) : ℕ :=
  (List.range (w-1)).countP fun i => u.getLsbD i != u.getLsbD (i+1)

/-- Ones less zeros. -/
def disparity (u : BitVec w) : ℤ := 2*(ones u : ℤ) - w

theorem ones_le (u : BitVec w) : ones u ≤ w := by
  have h := List.countP_le_length (p := u.getLsbD) (l := List.range w)
  rwa [List.length_range] at h

theorem ones_not (u : BitVec w) : ones (~~~u) + ones u = w := by
  have hnot : ones (~~~u) = (List.range w).countP fun i => !u.getLsbD i := by
    apply List.countP_congr
    intro i hi
    simp [List.mem_range.mp hi]
  have hlen := List.length_eq_countP_add_countP u.getLsbD (l := List.range w)
  simp only [List.length_range,Bool.not_eq_true] at hlen
  rw [hnot,ones]
  simp only [Bool.decide_eq_false] at hlen
  omega

theorem disparity_not (u : BitVec w) : disparity (~~~u) = -disparity u := by
  have h := ones_not u
  rw [disparity,disparity]
  omega

theorem countP_congr_range {p q : ℕ → Bool} {n : ℕ} (h : ∀ i < n, p i = q i) :
    (List.range n).countP p = (List.range n).countP q := by
  apply List.countP_congr
  intro i hi
  rw [h i (List.mem_range.mp hi)]

theorem ones_cons (x : Bool) (u : BitVec w) : ones (BitVec.cons x u) = x.toNat + ones u := by
  have hkeep : (List.range w).countP (BitVec.cons x u).getLsbD = ones u := by
    apply countP_congr_range
    intro i hi
    rw [BitVec.getLsbD_cons,if_neg hi.ne]
  have htop : (BitVec.cons x u).getLsbD w = x := by rw [BitVec.getLsbD_cons,if_pos rfl]
  rw [ones,List.range_succ,List.countP_append,hkeep,List.countP_singleton,htop,Nat.add_comm]
  cases x <;> rfl

theorem disparity_cons (x : Bool) (u : BitVec w) :
    disparity (BitVec.cons x u) = (if x then 1 else -1) + disparity u := by
  rw [disparity,ones_cons,disparity]
  cases x <;> simp <;> ring

theorem transitions_not (u : BitVec w) : transitions (~~~u) = transitions u := by
  apply List.countP_congr
  intro i hi
  have hlt : i+1 < w := by
    have := List.mem_range.mp hi
    omega
  simp [Nat.lt_of_succ_lt hlt,hlt]

theorem transitions_cons_le (x : Bool) (u : BitVec w) :
    transitions (BitVec.cons x u) ≤ transitions u + 1 := by
  cases w with
  | zero => simp [transitions]
  | succ w =>
      have hkeep : (List.range w).countP (fun i => (BitVec.cons x u).getLsbD i !=
          (BitVec.cons x u).getLsbD (i+1)) = transitions u := by
        apply countP_congr_range
        intro i hi
        rw [BitVec.getLsbD_cons,BitVec.getLsbD_cons,if_neg (by omega),if_neg (by omega)]
      change (List.range (w+1)).countP _ ≤ _
      rw [List.range_succ,List.countP_append,hkeep]
      exact Nat.add_le_add_left List.countP_le_length _

/-- The word with the given bits. -/
def ofFn (f : ℕ → Bool) : (w : ℕ) → BitVec w
  | 0 => BitVec.nil
  | w+1 => BitVec.cons (f w) (ofFn f w)

theorem getLsbD_ofFn (f : ℕ → Bool) {i : ℕ} (h : i < w) : (ofFn f w).getLsbD i = f i := by
  induction w with
  | zero => exact absurd h (Nat.not_lt_zero i)
  | succ w ih =>
      rw [ofFn,BitVec.getLsbD_cons]
      split_ifs with hi
      · rw [hi]
      · exact ih (by omega)

/-- Bit `i` of the word whose bit 0 is that of `d`, and whose every further bit is
made of the one before and the bit of `d`. -/
def chain (op : Bool → Bool → Bool) (d : BitVec w) : ℕ → Bool
  | 0 => d.getLsbD 0
  | i+1 => op (chain op d i) (d.getLsbD (i+1))

theorem chain_xor_ne (d : BitVec w) (i : ℕ) :
    (chain (· ^^ ·) d i != chain (· ^^ ·) d (i+1)) = d.getLsbD (i+1) := by
  rw [chain]
  cases chain (· ^^ ·) d i <;> cases d.getLsbD (i+1) <;> rfl

theorem chain_xnor_ne (d : BitVec w) (i : ℕ) :
    (chain (fun x y => !(x ^^ y)) d i != chain (fun x y => !(x ^^ y)) d (i+1)) =
      !d.getLsbD (i+1) := by
  rw [chain]
  cases chain (fun x y => !(x ^^ y)) d i <;> cases d.getLsbD (i+1) <;> rfl

theorem ones_succ (d : BitVec (w+1)) :
    ones d = (d.getLsbD 0).toNat + (List.range w).countP fun i => d.getLsbD (i+1) := by
  rw [ones,List.range_succ_eq_map,List.countP_cons,List.countP_map,Nat.add_comm]
  congr 1
  cases d.getLsbD 0 <;> rfl

theorem transitions_chain_xor (d : BitVec (w+1)) :
    transitions (ofFn (chain (· ^^ ·) d) (w+1)) + (d.getLsbD 0).toNat = ones d := by
  rw [ones_succ,Nat.add_comm]
  congr 1
  apply countP_congr_range
  intro i hi
  change i < w at hi
  rw [getLsbD_ofFn _ (by omega),getLsbD_ofFn _ (by omega),chain_xor_ne]

theorem transitions_chain_xnor (d : BitVec (w+1)) :
    transitions (ofFn (chain (fun x y => !(x ^^ y)) d) (w+1)) + ones d =
      w + (d.getLsbD 0).toNat := by
  have hzeros : transitions (ofFn (chain (fun x y => !(x ^^ y)) d) (w+1)) =
      (List.range w).countP fun i => !d.getLsbD (i+1) := by
    apply countP_congr_range
    intro i hi
    change i < w at hi
    rw [getLsbD_ofFn _ (by omega),getLsbD_ofFn _ (by omega),chain_xnor_ne]
  have hlen := List.length_eq_countP_add_countP (fun i => d.getLsbD (i+1)) (l := List.range w)
  simp only [List.length_range,Bool.not_eq_true,Bool.decide_eq_false] at hlen
  rw [hzeros,ones_succ]
  omega

end FpgaTest.BitCounts
