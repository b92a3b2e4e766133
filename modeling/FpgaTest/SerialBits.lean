import Mathlib.Tactic
import Mathlib.Data.BitVec

/-!
# Words on a serial line

The bits of a word in the order in which a shift register puts them on a line,
the most significant first, and the word that such a list of bits stands for.
The width is arbitrary.
-/
namespace FpgaTest.SerialBits

variable {w : ℕ}

/-- The first `k` bits of a word. -/
def msbFirst (x : BitVec w) (k : ℕ) : List Bool := (List.range k).map x.getMsbD

@[simp] theorem length_msbFirst (x : BitVec w) (k : ℕ) : (msbFirst x k).length = k := by
  simp [msbFirst]

theorem msbFirst_succ (x : BitVec w) (k : ℕ) :
    msbFirst x (k+1) = msbFirst x k ++ [x.getMsbD k] := by
  simp [msbFirst,List.range_succ]

theorem msbFirst_shift (x : BitVec w) (k : ℕ) :
    msbFirst x (k+1) = x.msb :: msbFirst (x <<< 1) k := by
  simp only [msbFirst,List.range_succ_eq_map,List.map_cons,List.map_map]
  congr 1
  apply List.map_congr_left
  intro j _
  simp

theorem ofBoolListBE_msbFirst (x : BitVec w) :
    (BitVec.ofBoolListBE (msbFirst x w)).setWidth w = x := by
  apply BitVec.eq_of_getMsbD_eq
  intro k hk
  simp only [BitVec.getMsbD_setWidth,length_msbFirst]
  simp [msbFirst,hk]

end FpgaTest.SerialBits
