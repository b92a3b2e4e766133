import Mathlib.Tactic

/-!
# A divided clock

A counter runs from zero to `top` and toggles a clock when it wraps, so that the
divided clock has a period of `2*(top+1)` edges of the base clock. Logic clocked
by it acts at the base edges where it rises (or falls). The bound on the counter
is a field of the record: a divider whose counter has passed `top` cannot be
written down.

`toRise` is the number of base edges up to and including the next rising edge.
It determines the phase completely, and the lemmas below state everything else
through it.
-/
namespace FpgaTest.ClockDivider

/-- A divider with its counter in the range that it counts through. -/
structure Divider (top : ℕ) where
  counter : ℕ
  clock : Bool
  counter_le : counter ≤ top
  deriving DecidableEq, Repr

namespace Divider

variable {top : ℕ}

/-- The declared start values. -/
def initial (top : ℕ) : Divider top := ⟨0,false,Nat.zero_le top⟩

def step (d : Divider top) : Divider top :=
  if h : d.counter ≠ top then
    ⟨d.counter+1,d.clock,Nat.lt_of_le_of_ne d.counter_le h⟩
  else ⟨0,!d.clock,Nat.zero_le top⟩

/-- The divided clock rises at the coming base edge. -/
def rises (d : Divider top) : Bool := d.counter == top && !d.clock

/-- Base edges up to and including the next rising edge. -/
def toRise (d : Divider top) : ℕ := (top-d.counter) + 1 + if d.clock then top+1 else 0

theorem toRise_pos (d : Divider top) : 0 < d.toRise := by
  unfold toRise
  omega

theorem toRise_le (d : Divider top) : d.toRise ≤ 2*(top+1) := by
  unfold toRise
  split <;> omega

theorem rises_iff (d : Divider top) : d.rises = true ↔ d.toRise = 1 := by
  have hle := d.counter_le
  unfold rises toRise
  cases d.clock <;> simp <;> omega

theorem clock_eq (d : Divider top) : d.clock = decide (top + 1 < d.toRise) := by
  unfold toRise
  cases d.clock <;> simp

theorem clock_of_rises {d : Divider top} (h : d.rises = true) :
    d.clock = false ∧ d.step.clock = true := by
  simp only [rises,Bool.and_eq_true,beq_iff_eq,Bool.not_eq_true'] at h
  simp [step,h.1,h.2]

theorem clock_step_of_not_rises {d : Divider top} (h : d.rises = false) (hc : d.clock = false) :
    d.step.clock = false := by
  have hne : d.counter ≠ top := by simpa [rises,hc] using h
  simp [step,hne,hc]

theorem toRise_step_of_rises {d : Divider top} (h : d.rises = true) :
    d.step.toRise = 2*(top+1) := by
  simp only [rises,Bool.and_eq_true,beq_iff_eq,Bool.not_eq_true'] at h
  simp only [step,h.1,h.2,toRise,ne_eq,not_true_eq_false,dite_false,Bool.not_false,if_true]
  omega

theorem toRise_step_of_not_rises {d : Divider top} (h : d.rises = false) :
    d.step.toRise + 1 = d.toRise := by
  have hle := d.counter_le
  by_cases hc : d.counter = top
  · have hclock : d.clock = true := by simpa [rises,hc] using h
    simp only [step,hc,hclock,toRise,ne_eq,not_true_eq_false,dite_false,Bool.not_true,
      if_true,Bool.false_eq_true,if_false]
    omega
  · simp only [step,hc,toRise,ne_eq,not_false_eq_true,dite_true]
    omega

/-- The divided clock falls at the coming base edge. -/
def falls (d : Divider top) : Bool := d.counter == top && d.clock

/-- Base edges up to and including the next falling edge. -/
def toFall (d : Divider top) : ℕ := (top-d.counter) + 1 + if d.clock then 0 else top+1

/-- It counts in the same way, so what holds of rising edges carries over to falling ones. -/
def inverted (d : Divider top) : Divider top := ⟨d.counter,!d.clock,d.counter_le⟩

theorem inverted_rises (d : Divider top) : d.inverted.rises = d.falls := by
  simp [rises,falls,inverted]

theorem inverted_toRise (d : Divider top) : d.inverted.toRise = d.toFall := by
  cases hc : d.clock <;> simp [toRise,toFall,inverted,hc]

theorem inverted_step (d : Divider top) : d.inverted.step = d.step.inverted := by
  by_cases h : d.counter = top <;> simp [step,inverted,h]

theorem toFall_pos (d : Divider top) : 0 < d.toFall := by
  rw [← inverted_toRise]
  exact toRise_pos _

theorem toFall_le (d : Divider top) : d.toFall ≤ 2*(top+1) := by
  rw [← inverted_toRise]
  exact toRise_le _

theorem falls_iff (d : Divider top) : d.falls = true ↔ d.toFall = 1 := by
  rw [← inverted_rises,← inverted_toRise]
  exact rises_iff _

theorem clock_eq_of_toFall (d : Divider top) : d.clock = decide (d.toFall ≤ top + 1) := by
  have h := d.inverted.clock_eq
  rw [inverted_toRise] at h
  rw [← Bool.not_not d.clock,show (!d.clock) = d.inverted.clock from rfl,h,← decide_not,
    decide_eq_decide]
  omega

theorem clock_of_falls {d : Divider top} (h : d.falls = true) :
    d.clock = true ∧ d.step.clock = false := by
  simp only [falls,Bool.and_eq_true,beq_iff_eq] at h
  simp [step,h.1,h.2]

theorem clock_step_of_not_falls {d : Divider top} (h : d.falls = false) (hc : d.clock = true) :
    d.step.clock = true := by
  have hne : d.counter ≠ top := by simpa [falls,hc] using h
  simp [step,hne,hc]

theorem toFall_step_of_falls {d : Divider top} (h : d.falls = true) :
    d.step.toFall = 2*(top+1) := by
  rw [← inverted_rises] at h
  rw [← inverted_toRise,← inverted_step]
  exact toRise_step_of_rises h

theorem toFall_step_of_not_falls {d : Divider top} (h : d.falls = false) :
    d.step.toFall + 1 = d.toFall := by
  rw [← inverted_rises] at h
  rw [← inverted_toRise,← inverted_toRise,← inverted_step]
  exact toRise_step_of_not_rises h

end Divider

end FpgaTest.ClockDivider
