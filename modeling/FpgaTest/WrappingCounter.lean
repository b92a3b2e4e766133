import Mathlib.Tactic
import Mathlib.Data.BitVec

/-!
# Counting up to a target in a register

A register of `w` bits that is incremented until it equals a target gets there
from every start value, if need be through the wrap at `2^w`. The number of
increments still to come is the difference of the two values in the register's
own arithmetic, and every increment lowers it by one.
-/
namespace FpgaTest.WrappingCounter

variable {w : ℕ}

/-- Increments that take `c` to `target`. -/
def remaining (target c : BitVec w) : ℕ := (target - c).toNat

theorem remaining_eq_zero_iff {target c : BitVec w} : remaining target c = 0 ↔ c = target := by
  rw [remaining,← BitVec.toNat_zero (w := w),BitVec.toNat_inj,eq_comm (a := c)]
  exact sub_eq_zero

theorem remaining_lt (target c : BitVec w) : remaining target c < 2^w :=
  (target - c).isLt

theorem remaining_succ {target c : BitVec w} (h : c ≠ target) :
    remaining target (c+1) + 1 = remaining target c := by
  have hne : remaining target c ≠ 0 := fun h0 => h (remaining_eq_zero_iff.mp h0)
  have hw : 1 < 2^w := by
    have := remaining_lt target c
    omega
  have hle : 1#w ≤ target - c := by
    rw [BitVec.le_def,BitVec.toNat_ofNat,Nat.mod_eq_of_lt hw]
    unfold remaining at hne
    omega
  have hsub := BitVec.toNat_sub_of_le hle
  rw [BitVec.toNat_ofNat,Nat.mod_eq_of_lt hw] at hsub
  have hassoc : target - (c+1) = target - c - 1#w := sub_add_eq_sub_sub target c 1
  unfold remaining at hne ⊢
  rw [hassoc,hsub]
  omega

end FpgaTest.WrappingCounter
