import FpgaTest.ClockDivider
import FpgaTest.WrappingCounter

/-!
# The SPI engine of the DAC

The DAC's `spiControl.v`. Two blocks on the base clock divide it by 100; the
state machine is clocked by the rising edge of the divided clock. That edge
happens inside a base edge, after the registers of the base clock have taken
their new values, so `data_in` and `spi_load` are the values present right after
that base edge, while everything the engine drives back is read before it.

The state register is two bits wide; its fourth value is never written and is
left out. Only `reset_n` resets the engine, and only at a rising edge of the
divided clock.
-/
namespace FpgaTest.DacSpi
open ClockDivider WrappingCounter

inductive Fsm where
  | idle | send | done
  deriving DecidableEq, Repr

structure State where
  div : Divider 49
  dataCount : BitVec 9
  shiftReg : BitVec 24
  state : Fsm
  ce : Bool
  spiDone : Bool
  spiData : Bool
  spiSync : Bool
  deriving DecidableEq, Repr

structure Input where
  resetN : Bool
  dataIn : BitVec 24
  spiLoad : Bool
  deriving DecidableEq, Repr

/-- The block at `posedge clock_10`. -/
def fsmStep (s : State) (i : Input) : State :=
  if !i.resetN then
    { s with
      state := .idle
      dataCount := 0
      spiDone := false
      ce := false
      spiData := false
      spiSync := true }
  else match s.state with
  | .idle =>
      if i.spiLoad then
        { s with shiftReg := i.dataIn, state := .send, dataCount := 0, ce := true }
      else s
  | .send =>
      let s' := { s with
        spiSync := false
        spiData := s.shiftReg.msb
        shiftReg := s.shiftReg <<< 1 }
      if s.dataCount ≠ 23 then { s' with dataCount := s.dataCount + 1 }
      else { s' with state := .done }
  | .done =>
      let s' := { s with spiDone := true, ce := false, spiSync := true }
      if !i.spiLoad then { s' with spiDone := false, state := .idle } else s'

def step (s : State) (i : Input) : State :=
  { (if s.div.rises then fsmStep s i else s) with div := s.div.step }

/-- The gated clock output. -/
def spiClock (s : State) : Bool := if s.ce then s.div.clock else true

/-- The word taken into the shift register at this edge. -/
def latched (s : State) (i : Input) : Option (BitVec 24) :=
  if s.div.rises && i.resetN && s.state == .idle && i.spiLoad then some i.dataIn else none

/-- Register contents after configuration of the device. -/
def powerUp : State := ⟨.initial 49,0,0,.idle,false,false,false,false⟩

@[simp] theorem step_div (s : State) (i : Input) : (step s i).div = s.div.step := by
  rfl

theorem step_of_not_rises {s : State} (i : Input) (h : s.div.rises = false) :
    step s i = { s with div := s.div.step } := by
  simp [step,h]

section Tick
variable {s : State} {i : Input}

theorem step_reset (ht : s.div.rises = true) (hr : i.resetN = false) :
    step s i = { s with
      div := s.div.step, state := .idle, dataCount := 0, spiDone := false,
      ce := false, spiData := false, spiSync := true } := by
  simp [step,ht,fsmStep,hr]

theorem step_rest (ht : s.div.rises = true) (hr : i.resetN = true) (hs : s.state = .idle)
    (hl : i.spiLoad = false) : step s i = { s with div := s.div.step } := by
  simp [step,ht,fsmStep,hr,hs,hl]

theorem step_latch (ht : s.div.rises = true) (hr : i.resetN = true) (hs : s.state = .idle)
    (hl : i.spiLoad = true) :
    step s i = { s with
      div := s.div.step, shiftReg := i.dataIn, state := .send, dataCount := 0, ce := true } := by
  simp [step,ht,fsmStep,hr,hs,hl]

theorem step_shift (ht : s.div.rises = true) (hr : i.resetN = true) (hs : s.state = .send)
    (hc : s.dataCount ≠ 23) :
    step s i = { s with
      div := s.div.step, spiSync := false, spiData := s.shiftReg.msb,
      shiftReg := s.shiftReg <<< 1, dataCount := s.dataCount + 1 } := by
  simp only [step,ht,fsmStep,hr,hs,hc,if_true,ne_eq,not_false_eq_true,Bool.not_true,
    Bool.false_eq_true,if_false]

theorem step_last (ht : s.div.rises = true) (hr : i.resetN = true) (hs : s.state = .send)
    (hc : s.dataCount = 23) :
    step s i = { s with
      div := s.div.step, spiSync := false, spiData := s.shiftReg.msb,
      shiftReg := s.shiftReg <<< 1, state := .done } := by
  simp [step,ht,fsmStep,hr,hs,hc]

theorem step_acknowledge (ht : s.div.rises = true) (hr : i.resetN = true) (hs : s.state = .done)
    (hl : i.spiLoad = true) :
    step s i = { s with div := s.div.step, spiDone := true, ce := false, spiSync := true } := by
  simp [step,ht,fsmStep,hr,hs,hl]

theorem step_release (ht : s.div.rises = true) (hr : i.resetN = true) (hs : s.state = .done)
    (hl : i.spiLoad = false) :
    step s i = { s with
      div := s.div.step, spiDone := false, ce := false, spiSync := true, state := .idle } := by
  simp [step,ht,fsmStep,hr,hs,hl]

end Tick

theorem latched_eq (s : State) (i : Input) : latched s i = none ∨ latched s i = some i.dataIn := by
  unfold latched
  split
  · exact .inr rfl
  · exact .inl rfl

theorem latched_eq_some_iff {s : State} {i : Input} {w : BitVec 24} :
    latched s i = some w ↔ s.div.rises = true ∧ i.resetN = true ∧ s.state = .idle ∧
      i.spiLoad = true ∧ i.dataIn = w := by
  simp [latched,and_assoc]

theorem latched_of_not_rises {s : State} (i : Input) (h : s.div.rises = false) :
    latched s i = none := by
  simp [latched,h]

theorem latched_of_not_idle {s : State} (i : Input) (h : s.state ≠ .idle) :
    latched s i = none := by
  simp [latched,h]

theorem latched_of_not_load {s : State} {i : Input} (h : i.spiLoad = false) :
    latched s i = none := by
  simp [latched,h]

/-- Ready for a request: in IDLE with `spi_done` low. -/
structure Free (s : State) : Prop where
  state : s.state = .idle
  spiDone : s.spiDone = false

/-- Occupied with a request; `spi_done` only ever shows in DONE. -/
structure Busy (s : State) : Prop where
  state : s.state ≠ .idle
  spiDone : s.spiDone = true → s.state = .done

/-- Acknowledging a request. -/
structure Acknowledging (s : State) : Prop where
  state : s.state = .done
  spiDone : s.spiDone = true

theorem Busy.acknowledging {s : State} (h : Busy s) (hd : s.spiDone = true) : Acknowledging s :=
  ⟨h.spiDone hd,hd⟩

theorem Acknowledging.busy {s : State} (h : Acknowledging s) : Busy s :=
  ⟨by rw [h.state]; decide,fun _ => h.state⟩

theorem Busy.spiDone_of_send {s : State} (h : Busy s) (hs : s.state = .send) :
    s.spiDone = false := by
  cases hd : s.spiDone with
  | false => rfl
  | true => simpa [hs] using h.spiDone hd

/-- A free engine either waits or takes the word offered to it. -/
theorem Free.step {s : State} {i : Input} (h : Free s) (hr : i.resetN = true) :
    (latched s i = none ∧ Free (step s i)) ∨
      (i.spiLoad = true ∧ latched s i = some i.dataIn ∧ Busy (step s i)) := by
  cases ht : s.div.rises with
  | false =>
      rw [step_of_not_rises i ht]
      exact .inl ⟨latched_of_not_rises i ht,h.state,h.spiDone⟩
  | true =>
      cases hl : i.spiLoad with
      | false =>
          rw [step_rest ht hr h.state hl]
          exact .inl ⟨latched_of_not_load hl,h.state,h.spiDone⟩
      | true =>
          rw [step_latch ht hr h.state hl]
          refine .inr ⟨rfl,by simp [latched,ht,hr,hl,h.state],?_⟩
          constructor <;> simp [h.spiDone]

/-- While the request is held the engine stays with it. -/
theorem Busy.step {s : State} {i : Input} (h : Busy s) (hr : i.resetN = true)
    (hl : i.spiLoad = true) : Busy (step s i) := by
  cases ht : s.div.rises with
  | false =>
      rw [step_of_not_rises i ht]
      exact ⟨h.state,h.spiDone⟩
  | true =>
      cases hs : s.state with
      | idle => exact absurd hs h.state
      | send =>
          have hd := h.spiDone_of_send hs
          by_cases hc : s.dataCount = 23
          · rw [step_last ht hr hs hc]
            constructor <;> simp
          · rw [step_shift ht hr hs hc]
            constructor <;> simp [hs,hd]
      | done =>
          rw [step_acknowledge ht hr hs hl]
          constructor <;> simp [hs]

theorem Acknowledging.step {s : State} {i : Input} (h : Acknowledging s) (hr : i.resetN = true)
    (hl : i.spiLoad = false) : Acknowledging (step s i) ∨ Free (step s i) := by
  cases ht : s.div.rises with
  | false =>
      rw [step_of_not_rises i ht]
      exact .inl ⟨h.state,h.spiDone⟩
  | true =>
      rw [step_release ht hr h.state hl]
      exact .inr ⟨rfl,rfl⟩

theorem free_of_reset {s : State} {i : Input} (ht : s.div.rises = true)
    (hr : i.resetN = false) : Free (step s i) := by
  rw [step_reset ht hr]
  exact ⟨rfl,rfl⟩

/-- Clocks until a request in progress is over and the engine is back in IDLE,
when the request is held up to the acknowledgement and withdrawn on it. -/
def busyClocks (s : State) : ℕ :=
  match s.state with
  | .idle => 0
  | .send => 100 * remaining 23 s.dataCount + s.div.toRise + 200
  | .done => if s.spiDone then s.div.toRise else s.div.toRise + 100

theorem busyClocks_pos {s : State} (h : s.state ≠ .idle) : 0 < busyClocks s := by
  have hpos := s.div.toRise_pos
  unfold busyClocks
  cases hs : s.state with
  | idle => exact absurd hs h
  | send => simp only; omega
  | done => simp only; split <;> omega

theorem busyClocks_eq_zero_iff {s : State} : busyClocks s = 0 ↔ s.state = .idle := by
  constructor
  · intro h
    by_contra hs
    have := busyClocks_pos hs
    omega
  · intro h
    simp [busyClocks,h]

theorem ne_idle_of_busyClocks_pos {s : State} (h : 0 < busyClocks s) : s.state ≠ .idle := by
  intro hs
  rw [busyClocks_eq_zero_iff.mpr hs] at h
  contradiction

theorem busyClocks_of_latched {s : State} {i : Input} {w : BitVec 24} (h : latched s i = some w) :
    busyClocks (step s i) = 2600 := by
  obtain ⟨ht,hr,hs,hl,-⟩ := latched_eq_some_iff.mp h
  have hrise := Divider.toRise_step_of_rises ht
  rw [step_latch ht hr hs hl]
  simp only [busyClocks,hrise]
  rfl

theorem Acknowledging.busyClocks_le {s : State} (h : Acknowledging s) : busyClocks s ≤ 100 := by
  simpa only [busyClocks,h.state,h.spiDone,if_true] using s.div.toRise_le

theorem spiDone_of_busyClocks {s : State} (hd : s.spiDone = true → s.state = .done)
    (hc : 100 < busyClocks s) : s.spiDone = false := by
  refine Bool.eq_false_iff.mpr fun hs => ?_
  have hack : Acknowledging s := ⟨hd hs,hs⟩
  exact absurd hack.busyClocks_le (Nat.not_le.mpr hc)

theorem busyClocks_step {s : State} {i : Input} (hr : i.resetN = true) (h : Busy s)
    (hl : i.spiLoad = !s.spiDone) : busyClocks (step s i) + 1 = busyClocks s := by
  cases ht : s.div.rises with
  | false =>
      have hrise := Divider.toRise_step_of_not_rises ht
      rw [step_of_not_rises i ht]
      unfold busyClocks
      cases hs : s.state with
      | idle => exact absurd hs h.state
      | send => simp only; omega
      | done => simp only; split <;> omega
  | true =>
      have h1 := (Divider.rises_iff s.div).mp ht
      have hrise := Divider.toRise_step_of_rises ht
      cases hs : s.state with
      | idle => exact absurd hs h.state
      | send =>
          by_cases hc : s.dataCount = 23
          · have h0 := remaining_eq_zero_iff.mpr hc
            rw [step_last ht hr hs hc]
            simp only [busyClocks,hs,h.spiDone_of_send hs,Bool.false_eq_true,if_false]
            omega
          · have hrem := remaining_succ hc
            rw [step_shift ht hr hs hc]
            simp only [busyClocks,hs]
            omega
      | done =>
          cases hd : s.spiDone with
          | false =>
              rw [step_acknowledge ht hr hs (by rw [hl,hd]; rfl)]
              simp only [busyClocks,hs,hd,if_true,Bool.false_eq_true,if_false]
              omega
          | true =>
              rw [step_release ht hr hs (by rw [hl,hd]; rfl)]
              simp only [busyClocks,hs,hd,if_true]
              omega

end FpgaTest.DacSpi
