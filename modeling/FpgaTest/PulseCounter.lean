import FpgaTest.ClockedMachine

/-!
# The pulse counter core

One register record for each `always` block of `pulse_counter.v`: the output
pipeline, the input samplers, the pulse count and the trigger gate. All four
blocks run on the same clock with nonblocking assignments, so `step` computes
every register from the state before the edge and from the inputs present at
that edge. The pass-through wires PASS_COUNT and PASS_TRIGGER carry no state.

`Input.reset` is the common condition `!RESET_N || RESET_BTN`. It clears the
samplers, the count and the gate, but not the output pipeline and not
PASS_GATE; the count has the additional clear bit CONFIG_REG[0].
-/
namespace FpgaTest.PulseCounter
open ClockedMachine

structure Input where
  resetN : Bool
  resetBtn : Bool
  countSig : Bool
  triggerSig : Bool
  triggerDly : BitVec 32
  triggerWidth : BitVec 32
  configReg : BitVec 32
  deriving DecidableEq, Repr

def Input.reset (i : Input) : Bool := !i.resetN || i.resetBtn

/-- CONFIG_REG[0], pulse count clear. -/
def Input.clear (i : Input) : Bool := i.configReg.getLsbD 0

/-- CONFIG_REG[1], trigger mode enable. -/
def Input.triggerMode (i : Input) : Bool := i.configReg.getLsbD 1

inductive TState where
  | idel | delay | width
  deriving DecidableEq, Repr

structure Sampler where
  countState : Bool
  countStatePrev : Bool
  triggerState : Bool
  triggerStatePrev : Bool
  deriving DecidableEq, Repr

structure Gate where
  triggerCount : BitVec 32
  isTrigger : Bool
  passGate : Bool
  tstate : TState
  deriving DecidableEq, Repr

structure State where
  countData : BitVec 32
  configData : BitVec 3
  sampler : Sampler
  pulseCount : BitVec 32
  gate : Gate
  deriving DecidableEq, Repr

/-- Bits 2, 1 and 0 of CONFIG_DATA. -/
def configData (s : State) (i : Input) : BitVec 3 :=
  BitVec.ofBool s.gate.isTrigger ++ BitVec.ofBool i.triggerMode ++ BitVec.ofBool i.clear

def Sampler.step (s : Sampler) (i : Input) : Sampler :=
  if i.reset then ⟨false,false,false,false⟩
  else
    { countState := i.countSig
      countStatePrev := s.countState
      triggerState := i.triggerSig
      triggerStatePrev := s.triggerState }

def Sampler.countRise (s : Sampler) : Bool := s.countState && !s.countStatePrev

def Sampler.triggerRise (s : Sampler) : Bool := s.triggerState && !s.triggerStatePrev

def pulseCountStep (s : State) (i : Input) : BitVec 32 :=
  if i.reset || i.clear then 0
  else if i.triggerMode then
    if s.sampler.countRise && s.gate.isTrigger then s.pulseCount + 1 else s.pulseCount
  else
    if s.sampler.countRise then s.pulseCount + 1 else s.pulseCount

/-- The delay and the width phase share one counter, which is not restarted
between them. -/
def Gate.step (g : Gate) (triggerRise : Bool) (i : Input) : Gate :=
  if i.reset then { g with triggerCount := 0, isTrigger := false, tstate := .idel }
  else match g.tstate with
  | .idel => if triggerRise then { g with tstate := .delay } else g
  | .delay =>
      if g.triggerCount ≠ i.triggerDly then { g with triggerCount := g.triggerCount + 1 }
      else { g with isTrigger := true, passGate := true, tstate := .width }
  | .width =>
      if g.triggerCount ≠ i.triggerWidth then { g with triggerCount := g.triggerCount + 1 }
      else ⟨0,false,false,.idel⟩

def step (s : State) (i : Input) : State where
  countData := s.pulseCount
  configData := configData s i
  sampler := s.sampler.step i
  pulseCount := pulseCountStep s i
  gate := s.gate.step s.sampler.triggerRise i

/-- Register contents after configuration of the device. -/
def powerUp : State := ⟨0,0,⟨false,false,false,false⟩,0,⟨0,false,false,.idel⟩⟩

@[simp] theorem step_countData (s : State) (i : Input) : (step s i).countData = s.pulseCount := rfl
@[simp] theorem step_sampler (s : State) (i : Input) : (step s i).sampler = s.sampler.step i := rfl
@[simp] theorem step_pulseCount (s : State) (i : Input) :
    (step s i).pulseCount = pulseCountStep s i := rfl
@[simp] theorem step_gate (s : State) (i : Input) :
    (step s i).gate = s.gate.step s.sampler.triggerRise i := rfl

/-- The count advances by one exactly on a sampled rising edge that the mode
lets through; otherwise it is cleared or kept. -/
theorem pulseCountStep_eq (s : State) (i : Input) (h : (i.reset || i.clear) = false) :
    pulseCountStep s i = s.pulseCount +
      BitVec.ofNat 32 (s.sampler.countRise && (!i.triggerMode || s.gate.isTrigger)).toNat := by
  unfold pulseCountStep
  rw [h]
  cases i.triggerMode <;> cases s.sampler.countRise <;> cases s.gate.isTrigger <;> simp

/-- The count changes at this edge: it is cleared and was not zero, or a rising
edge is let through. -/
def CountChanges (s : State) (i : Input) : Prop :=
  if i.reset || i.clear then s.pulseCount ≠ 0
  else s.sampler.countRise = true ∧ (i.triggerMode = true → s.gate.isTrigger = true)

theorem pulseCountStep_ne_iff (s : State) (i : Input) :
    pulseCountStep s i ≠ s.pulseCount ↔ CountChanges s i := by
  unfold pulseCountStep CountChanges
  cases i.reset || i.clear with
  | true => exact ne_comm
  | false => cases i.triggerMode <;> cases s.sampler.countRise <;> cases s.gate.isTrigger <;> simp

theorem pulseCountStep_clear (s : State) (i : Input) (h : (i.reset || i.clear) = true) :
    pulseCountStep s i = 0 := by
  simp [pulseCountStep,h]

/-- The gate can only open on the edge that ends the delay phase, and it then
carries the delay count into the width phase. -/
theorem gate_opens {g : Gate} {r : Bool} {i : Input}
    (hlow : g.isTrigger = false) (hhigh : (g.step r i).isTrigger = true) :
    (g.step r i).tstate = .width ∧ (g.step r i).triggerCount = i.triggerDly := by
  unfold Gate.step at *
  cases hr : i.reset with
  | true => simp [hr] at hhigh
  | false =>
      cases ht : g.tstate with
      | idel =>
          cases r <;> simp [hr,ht,hlow] at hhigh
      | delay =>
          by_cases hc : g.triggerCount = i.triggerDly
          · simp [hc]
          · simp [hr,ht,hc,hlow] at hhigh
      | width =>
          by_cases hc : g.triggerCount = i.triggerWidth <;> simp [hr,ht,hc,hlow] at hhigh

theorem gate_reset {g : Gate} {r : Bool} {i : Input} (hr : i.reset = true) :
    g.step r i = { g with triggerCount := 0, isTrigger := false, tstate := .idel } := by
  simp [Gate.step,hr]

theorem gate_idel_waits {g : Gate} {i : Input} (hr : i.reset = false) (ht : g.tstate = .idel) :
    g.step false i = g := by
  simp [Gate.step,hr,ht]

theorem gate_idel_starts {g : Gate} {i : Input} (hr : i.reset = false) (ht : g.tstate = .idel) :
    g.step true i = { g with tstate := .delay } := by
  simp [Gate.step,hr,ht]

theorem gate_delay_counts {g : Gate} {r : Bool} {i : Input} (hr : i.reset = false)
    (ht : g.tstate = .delay) (hc : g.triggerCount ≠ i.triggerDly) :
    g.step r i = { g with triggerCount := g.triggerCount + 1 } := by
  simp [Gate.step,hr,ht,hc]

theorem gate_delay_opens {g : Gate} {r : Bool} {i : Input} (hr : i.reset = false)
    (ht : g.tstate = .delay) (hc : g.triggerCount = i.triggerDly) :
    g.step r i = { g with isTrigger := true, passGate := true, tstate := .width } := by
  simp [Gate.step,hr,ht,hc]

theorem gate_width_counts {g : Gate} {r : Bool} {i : Input} (hr : i.reset = false)
    (ht : g.tstate = .width) (hc : g.triggerCount ≠ i.triggerWidth) :
    g.step r i = { g with triggerCount := g.triggerCount + 1 } := by
  simp [Gate.step,hr,ht,hc]

theorem gate_width_closes {g : Gate} {r : Bool} {i : Input} (hr : i.reset = false)
    (ht : g.tstate = .width) (hc : g.triggerCount = i.triggerWidth) :
    g.step r i = ⟨0,false,false,.idel⟩ := by
  simp [Gate.step,hr,ht,hc]

end FpgaTest.PulseCounter
