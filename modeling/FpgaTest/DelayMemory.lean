import Mathlib.Logic.Function.Basic
import Mathlib.Tactic

/-!
# A memory written round and round

Word number `n` of a stream goes to address `n` modulo the depth, so an address
holds the latest word whose number is congruent to it. Depth and words are
arbitrary; what the memory held before the first word does not matter for
addresses that have been written.
-/
namespace FpgaTest.DelayMemory

variable {α : Type} {depth : ℕ} [NeZero depth] {mem : Fin depth → α} {d : ℕ → α} {n r : ℕ}

/-- The memory behind the first `n` words. -/
structure Holds (mem : Fin depth → α) (d : ℕ → α) (n : ℕ) : Prop where
  latest : ∀ r < n, n ≤ r+depth → mem (Fin.ofNat depth r) = d r

theorem holds_zero (mem : Fin depth → α) (d : ℕ → α) : Holds mem d 0 :=
  ⟨fun _ hr => absurd hr (Nat.not_lt_zero _)⟩

theorem Holds.write (h : Holds mem d n) :
    Holds (Function.update mem (Fin.ofNat depth n) (d n)) d (n+1) := by
  constructor
  intro r hr hn
  rcases Nat.eq_or_lt_of_le (Nat.le_of_lt_succ hr) with rfl | hlt
  · rw [Function.update_self]
  · rw [Function.update_of_ne,h.latest r hlt (by omega)]
    intro he
    have hmod : r % depth = n % depth := congrArg Fin.val he
    have hgap : (n-r) % depth = 0 :=
      Nat.mod_eq_zero_of_dvd ((Nat.modEq_iff_dvd' hlt.le).mp hmod)
    rw [Nat.mod_eq_of_lt (by omega)] at hgap
    omega

/-- The word found at the address of an earlier one: itself, or the one that many
rounds later took its place. -/
theorem Holds.read (h : Holds mem d n) (hr : r < n) :
    mem (Fin.ofNat depth r) = d (r + depth*((n-1-r)/depth)) := by
  have hpos : 0 < depth := NeZero.pos depth
  have hlatest : r + depth*((n-1-r)/depth) < n ∧ n ≤ r + depth*((n-1-r)/depth) + depth := by
    have hdiv := Nat.div_add_mod (n-1-r) depth
    have hmod := Nat.mod_lt (n-1-r) hpos
    omega
  rw [← h.latest _ hlatest.1 hlatest.2]
  congr 1
  apply Fin.ext
  exact (Nat.add_mul_mod_self_left r depth _).symm

end FpgaTest.DelayMemory
