import FpgaTest.TriggerGate

/-!
# PASS_GATE and the gate counter over whole runs

Both statements are about every run from power-up, with resets and register
values that change from edge to edge. The first relates the output PASS_GATE
to `isTrigger`; the reset branch of the trigger machine writes only the
second. The second bounds `trigger_count` by the register of the current
phase. The comparisons of the source are `!=` against the live registers, so a
register that moves below the count is passed and the count goes on to the
32-bit wrap. For both the exact condition on the edges is given.
-/
namespace FpgaTest.GateRegisters
open ClockedMachine PulseCounter TriggerGate

/-- A reset that finds the gate closed keeps the two registers equal, and so
does every other edge. -/
theorem passGate_step {g : Gate} {r : Bool} {i : Input} (heq : g.passGate = g.isTrigger)
    (hedge : i.reset = true → g.isTrigger = false) :
    (g.step r i).passGate = (g.step r i).isTrigger := by
  cases hr : i.reset with
  | true => rw [gate_reset hr,heq,hedge hr]
  | false =>
      cases ht : g.tstate with
      | idel =>
          cases r with
          | false => rw [gate_idel_waits hr ht,heq]
          | true => rw [gate_idel_starts hr ht,heq]
      | delay =>
          by_cases hc : g.triggerCount = i.triggerDly
          · rw [gate_delay_opens hr ht hc]
          · rw [gate_delay_counts hr ht hc,heq]
      | width =>
          by_cases hc : g.triggerCount = i.triggerWidth
          · rw [gate_width_closes hr ht hc]
          · rw [gate_width_counts hr ht hc,heq]

/-- PASS_GATE equals `isTrigger` throughout a run exactly when no reset edge
of the run finds the gate open. -/
theorem passGate_eq_isTrigger_iff (input : ℕ → Input) :
    (∀ n, (run step powerUp input n).gate.passGate = (run step powerUp input n).gate.isTrigger) ↔
      ∀ n, (input n).reset = true → (run step powerUp input n).gate.isTrigger = false := by
  constructor
  · intro h n hr
    have hnext := h (n+1)
    rw [run_succ,step_gate,gate_reset hr] at hnext
    rw [← h n]
    exact hnext
  · intro h n
    induction n with
    | zero => rfl
    | succ n ih => exact passGate_step ih (h n)

/-- The trigger opens a long gate at edge three; the button is pressed at edge five. -/
def buttonInGate (n : ℕ) : Input := ⟨true,decide (n = 5),false,true,0,100,0⟩

theorem passGate_ne_isTrigger_buttonInGate :
    (run step powerUp buttonInGate 6).gate.passGate = true ∧
      (run step powerUp buttonInGate 6).gate.isTrigger = false ∧
      ¬ ∀ n, (run step powerUp buttonInGate n).gate.passGate =
        (run step powerUp buttonInGate n).gate.isTrigger := by
  refine ⟨by decide,by decide,?_⟩
  intro h
  exact absurd (h 6) (by decide)

/-- The count is within the register of its phase, zero when idle. -/
def CountBounded (g : Gate) (i : Input) : Prop :=
  match g.tstate with
  | .idel => g.triggerCount = 0
  | .delay => g.triggerCount ≤ i.triggerDly
  | .width => g.triggerCount ≤ i.triggerWidth

/-- The increment that this edge makes, if any, does not wrap. -/
def NoWrap (g : Gate) (i : Input) : Prop :=
  match g.tstate with
  | .idel => True
  | .delay => g.triggerCount ≠ i.triggerDly →
      (g.triggerCount + 1).toNat = g.triggerCount.toNat + 1
  | .width => g.triggerCount ≠ i.triggerWidth →
      (g.triggerCount + 1).toNat = g.triggerCount.toNat + 1

/-- What the registers may hold after an edge without reset, given the gate
and the registers before it: a phase that goes on counting keeps a target
above the count, and the phase that takes over the count has a target that is
not below it. -/
def TargetsAhead (g : Gate) (i next : Input) : Prop :=
  match g.tstate with
  | .idel => True
  | .delay =>
      if g.triggerCount ≠ i.triggerDly then g.triggerCount < next.triggerDly
      else g.triggerCount ≤ next.triggerWidth
  | .width => g.triggerCount ≠ i.triggerWidth → g.triggerCount < next.triggerWidth

theorem noWrap_of_countBounded {g : Gate} {i : Input} (h : CountBounded g i) : NoWrap g i := by
  unfold CountBounded at h
  unfold NoWrap
  cases ht : g.tstate with
  | idel => trivial
  | delay =>
      simp only [ht] at h ⊢
      intro hne
      bv_omega
  | width =>
      simp only [ht] at h ⊢
      intro hne
      bv_omega

/-- One edge: the bound is kept exactly when the registers stay ahead. -/
theorem countBounded_step_iff {g : Gate} {r : Bool} {i next : Input} (h : CountBounded g i)
    (hr : i.reset = false) : CountBounded (g.step r i) next ↔ TargetsAhead g i next := by
  unfold CountBounded at h
  cases ht : g.tstate with
  | idel =>
      simp only [ht] at h
      cases r with
      | false =>
          rw [gate_idel_waits hr ht]
          simp [CountBounded,TargetsAhead,ht,h]
      | true =>
          rw [gate_idel_starts hr ht]
          simp only [CountBounded,TargetsAhead,ht,h,iff_true]
          exact Nat.zero_le _
  | delay =>
      simp only [ht] at h
      by_cases hc : g.triggerCount = i.triggerDly
      · rw [gate_delay_opens hr ht hc]
        simp [CountBounded,TargetsAhead,ht,hc]
      · rw [gate_delay_counts hr ht hc]
        simp only [CountBounded,TargetsAhead,ht,ne_eq,hc,not_false_iff,if_true]
        bv_omega
  | width =>
      simp only [ht] at h
      by_cases hc : g.triggerCount = i.triggerWidth
      · rw [gate_width_closes hr ht hc]
        simp [CountBounded,TargetsAhead,ht,hc]
      · rw [gate_width_counts hr ht hc]
        simp only [CountBounded,TargetsAhead,ht,ne_eq,hc,not_false_iff,true_implies]
        bv_omega

theorem countBounded_reset {g : Gate} {r : Bool} {i next : Input} (hr : i.reset = true) :
    CountBounded (g.step r i) next := by
  rw [gate_reset hr]
  rfl

/-- The count stays within its register throughout a run, and so never wraps,
exactly when the registers stay ahead of it at every edge without reset. -/
theorem countBounded_iff (input : ℕ → Input) :
    (∀ n, CountBounded (run step powerUp input n).gate (input n) ∧
        NoWrap (run step powerUp input n).gate (input n)) ↔
      ∀ n, (input n).reset = false →
        TargetsAhead (run step powerUp input n).gate (input n) (input (n+1)) := by
  constructor
  · intro h n hr
    exact (countBounded_step_iff (h n).1 hr).mp (h (n+1)).1
  · intro h
    have hb : ∀ n, CountBounded (run step powerUp input n).gate (input n) := by
      intro n
      induction n with
      | zero => rfl
      | succ n ih =>
          rw [run_succ,step_gate]
          cases hr : (input n).reset with
          | true => exact countBounded_reset hr
          | false => exact (countBounded_step_iff ih hr).mpr (h n hr)
    intro n
    exact ⟨hb n,noWrap_of_countBounded (hb n)⟩

/-- TRIGGER_WIDTH is rewritten from five to one while the gate is open. -/
def widthLowered (n : ℕ) : Input := ⟨true,false,false,true,0,if n < 6 then 5 else 1,0⟩

theorem count_past_width_widthLowered :
    (run step powerUp widthLowered 6).gate.tstate = .width ∧
      (run step powerUp widthLowered 6).gate.triggerCount = 3 ∧
      (widthLowered 6).triggerWidth = 1 ∧
      ¬ ∀ n, CountBounded (run step powerUp widthLowered n).gate (widthLowered n) := by
  refine ⟨by decide,by decide,by decide,?_⟩
  intro h
  have h6 : (run step powerUp widthLowered 6).gate.triggerCount ≤
      (widthLowered 6).triggerWidth := h 6
  exact absurd h6 (by decide)

/-- Registers that are never rewritten stay ahead when the delay is not above
the width. -/
theorem targetsAhead_of_steady {input : ℕ → Input} {dly width : BitVec 32}
    (hs : Steady input dly width) (hle : dly ≤ width) {g : Gate} {n : ℕ}
    (h : CountBounded g (input n)) : TargetsAhead g (input n) (input (n+1)) := by
  unfold CountBounded at h
  unfold TargetsAhead
  cases ht : g.tstate with
  | idel => trivial
  | delay =>
      simp only [ht,hs.triggerDly,hs.triggerWidth] at h ⊢
      split_ifs with hc
      · bv_omega
      · bv_omega
  | width =>
      simp only [ht,hs.triggerWidth] at h ⊢
      intro hc
      bv_omega

theorem countBounded_of_steady {input : ℕ → Input} {dly width : BitVec 32}
    (hs : Steady input dly width) (hle : dly ≤ width) (n : ℕ) :
    CountBounded (run step powerUp input n).gate (input n) := by
  induction n with
  | zero => rfl
  | succ n ih =>
      exact (countBounded_step_iff ih (hs.noReset n)).mpr (targetsAhead_of_steady hs hle ih)

end FpgaTest.GateRegisters
