import FpgaTest.ClockDivider
import FpgaTest.WrappingCounter

/-!
# The SPI engine of the display

The display's `spiControl.v`. The base clock is divided by ten, and the state
machine is clocked by the falling edge of the divided clock. As in the DAC's
engine that edge happens inside a base edge, after the registers of the base
clock have taken their new values. A byte is put on the data pin bit by bit at
eight falling edges; the gated clock rises in the middle of each bit.

Only `reset_n` resets the engine, and only at a falling edge of the divided
clock. The fourth value of the state register is never written and is left out.
-/
namespace FpgaTest.OledSpi
open ClockDivider WrappingCounter

inductive Fsm where
  | idle | send | done
  deriving DecidableEq, Repr

structure State where
  div : Divider 4
  dataCount : BitVec 3
  shiftReg : BitVec 8
  state : Fsm
  ce : Bool
  doneSend : Bool
  spiData : Bool
  deriving DecidableEq, Repr

structure Input where
  resetN : Bool
  dataIn : BitVec 8
  loadData : Bool
  deriving DecidableEq, Repr

/-- The block at `negedge clock_10`. -/
def fsmStep (s : State) (i : Input) : State :=
  if !i.resetN then
    { s with state := .idle, dataCount := 0, doneSend := false, ce := false, spiData := true }
  else match s.state with
  | .idle =>
      if i.loadData then { s with shiftReg := i.dataIn, state := .send, dataCount := 0 } else s
  | .send =>
      let s' := { s with
        spiData := s.shiftReg.msb
        shiftReg := s.shiftReg <<< 1
        ce := true }
      if s.dataCount ≠ 7 then { s' with dataCount := s.dataCount + 1 }
      else { s' with state := .done }
  | .done =>
      let s' := { s with doneSend := true, ce := false }
      if !i.loadData then { s' with doneSend := false, state := .idle } else s'

def step (s : State) (i : Input) : State :=
  { (if s.div.falls then fsmStep s i else s) with div := s.div.step }

/-- The gated clock output. -/
def spiClock (s : State) : Bool := if s.ce then s.div.clock else true

/-- The byte taken into the shift register at this edge. -/
def latched (s : State) (i : Input) : Option (BitVec 8) :=
  if s.div.falls && i.resetN && s.state == .idle && i.loadData then some i.dataIn else none

@[simp] theorem step_div (s : State) (i : Input) : (step s i).div = s.div.step := by
  rfl

theorem step_of_not_falls {s : State} (i : Input) (h : s.div.falls = false) :
    step s i = { s with div := s.div.step } := by
  simp [step,h]

section Tick
variable {s : State} {i : Input}

theorem step_reset (ht : s.div.falls = true) (hr : i.resetN = false) :
    step s i = { s with
      div := s.div.step, state := .idle, dataCount := 0, doneSend := false,
      ce := false, spiData := true } := by
  simp [step,ht,fsmStep,hr]

theorem step_rest (ht : s.div.falls = true) (hr : i.resetN = true) (hs : s.state = .idle)
    (hl : i.loadData = false) : step s i = { s with div := s.div.step } := by
  simp [step,ht,fsmStep,hr,hs,hl]

theorem step_latch (ht : s.div.falls = true) (hr : i.resetN = true) (hs : s.state = .idle)
    (hl : i.loadData = true) :
    step s i = { s with
      div := s.div.step, shiftReg := i.dataIn, state := .send, dataCount := 0 } := by
  simp [step,ht,fsmStep,hr,hs,hl]

theorem step_shift (ht : s.div.falls = true) (hr : i.resetN = true) (hs : s.state = .send)
    (hc : s.dataCount ≠ 7) :
    step s i = { s with
      div := s.div.step, spiData := s.shiftReg.msb, shiftReg := s.shiftReg <<< 1,
      ce := true, dataCount := s.dataCount + 1 } := by
  simp only [step,ht,fsmStep,hr,hs,hc,if_true,ne_eq,not_false_eq_true,Bool.not_true,
    Bool.false_eq_true,if_false]

theorem step_last (ht : s.div.falls = true) (hr : i.resetN = true) (hs : s.state = .send)
    (hc : s.dataCount = 7) :
    step s i = { s with
      div := s.div.step, spiData := s.shiftReg.msb, shiftReg := s.shiftReg <<< 1,
      ce := true, state := .done } := by
  simp [step,ht,fsmStep,hr,hs,hc]

theorem step_acknowledge (ht : s.div.falls = true) (hr : i.resetN = true) (hs : s.state = .done)
    (hl : i.loadData = true) :
    step s i = { s with div := s.div.step, doneSend := true, ce := false } := by
  simp [step,ht,fsmStep,hr,hs,hl]

theorem step_release (ht : s.div.falls = true) (hr : i.resetN = true) (hs : s.state = .done)
    (hl : i.loadData = false) :
    step s i = { s with
      div := s.div.step, doneSend := false, ce := false, state := .idle } := by
  simp [step,ht,fsmStep,hr,hs,hl]

end Tick

theorem latched_eq_some_iff {s : State} {i : Input} {b : BitVec 8} :
    latched s i = some b ↔ s.div.falls = true ∧ i.resetN = true ∧ s.state = .idle ∧
      i.loadData = true ∧ i.dataIn = b := by
  simp [latched,and_assoc]

theorem latched_of_not_falls {s : State} (i : Input) (h : s.div.falls = false) :
    latched s i = none := by
  simp [latched,h]

theorem latched_of_not_idle {s : State} (i : Input) (h : s.state ≠ .idle) :
    latched s i = none := by
  simp [latched,h]

theorem latched_of_not_load {s : State} {i : Input} (h : i.loadData = false) :
    latched s i = none := by
  simp [latched,h]

/-- Ready for a request: in IDLE with `done_send` low. -/
structure Free (s : State) : Prop where
  state : s.state = .idle
  doneSend : s.doneSend = false

/-- Occupied with a request; `done_send` only ever shows in DONE. -/
structure Busy (s : State) : Prop where
  state : s.state ≠ .idle
  doneSend : s.doneSend = true → s.state = .done

/-- Acknowledging a request. -/
structure Acknowledging (s : State) : Prop where
  state : s.state = .done
  doneSend : s.doneSend = true

/-- The engine has finished with the last request, acknowledging it or free. -/
def Settled (s : State) : Prop := Acknowledging s ∨ Free s

theorem Busy.acknowledging {s : State} (h : Busy s) (hd : s.doneSend = true) : Acknowledging s :=
  ⟨h.doneSend hd,hd⟩

theorem Acknowledging.busy {s : State} (h : Acknowledging s) : Busy s :=
  ⟨by rw [h.state]; decide,fun _ => h.state⟩

theorem Settled.free {s : State} (h : Settled s) (hd : s.doneSend = false) : Free s := by
  rcases h with h | h
  · rw [h.doneSend] at hd
    contradiction
  · exact h

theorem Busy.doneSend_of_send {s : State} (h : Busy s) (hs : s.state = .send) :
    s.doneSend = false := by
  cases hd : s.doneSend with
  | false => rfl
  | true => simpa [hs] using h.doneSend hd

/-- A free engine either waits or takes the byte offered to it. -/
theorem Free.step {s : State} {i : Input} (h : Free s) (hr : i.resetN = true) :
    (latched s i = none ∧ Free (step s i)) ∨
      (i.loadData = true ∧ latched s i = some i.dataIn ∧ Busy (step s i) ∧
        (step s i).doneSend = false) := by
  cases ht : s.div.falls with
  | false =>
      rw [step_of_not_falls i ht]
      exact .inl ⟨latched_of_not_falls i ht,h.state,h.doneSend⟩
  | true =>
      cases hl : i.loadData with
      | false =>
          rw [step_rest ht hr h.state hl]
          exact .inl ⟨latched_of_not_load hl,h.state,h.doneSend⟩
      | true =>
          rw [step_latch ht hr h.state hl]
          refine .inr ⟨rfl,by simp [latched,ht,hr,hl,h.state],?_,h.doneSend⟩
          constructor <;> simp [h.doneSend]

/-- While the request is held the engine stays with it. -/
theorem Busy.step {s : State} {i : Input} (h : Busy s) (hr : i.resetN = true)
    (hl : i.loadData = true) : Busy (step s i) := by
  cases ht : s.div.falls with
  | false =>
      rw [step_of_not_falls i ht]
      exact ⟨h.state,h.doneSend⟩
  | true =>
      cases hs : s.state with
      | idle => exact absurd hs h.state
      | send =>
          have hd := h.doneSend_of_send hs
          by_cases hc : s.dataCount = 7
          · rw [step_last ht hr hs hc]
            constructor <;> simp
          · rw [step_shift ht hr hs hc]
            constructor <;> simp [hs,hd]
      | done =>
          rw [step_acknowledge ht hr hs hl]
          constructor <;> simp [hs]

/-- Once the request is withdrawn the acknowledgement ends at the next falling
edge of the divided clock; a settled engine takes nothing. -/
theorem Settled.step {s : State} {i : Input} (h : Settled s) (hr : i.resetN = true)
    (hl : i.loadData = false) : latched s i = none ∧ Settled (step s i) := by
  refine ⟨latched_of_not_load hl,?_⟩
  rcases h with h | h
  · cases ht : s.div.falls with
    | false =>
        rw [step_of_not_falls i ht]
        exact .inl ⟨h.state,h.doneSend⟩
    | true =>
        rw [step_release ht hr h.state hl]
        exact .inr ⟨rfl,rfl⟩
  · rcases h.step hr with ⟨-,hf⟩ | ⟨hload,-⟩
    · exact .inr hf
    · rw [hl] at hload
      contradiction

theorem free_of_reset {s : State} {i : Input} (ht : s.div.falls = true)
    (hr : i.resetN = false) : Free (step s i) := by
  rw [step_reset ht hr]
  exact ⟨rfl,rfl⟩

/-- Clocks until a request in progress is over and the engine is back in IDLE,
when the request is held up to the acknowledgement and withdrawn on it. -/
def busyClocks (s : State) : ℕ :=
  match s.state with
  | .idle => 0
  | .send => 10 * remaining 7 s.dataCount + s.div.toFall + 20
  | .done => if s.doneSend then s.div.toFall else s.div.toFall + 10

theorem Acknowledging.busyClocks_le {s : State} (h : Acknowledging s) : busyClocks s ≤ 10 := by
  simpa only [busyClocks,h.state,h.doneSend,if_true] using s.div.toFall_le

theorem Free.busyClocks {s : State} (h : Free s) : busyClocks s = 0 := by
  simp [OledSpi.busyClocks,h.state]

theorem busyClocks_step {s : State} {i : Input} (hr : i.resetN = true) (h : Busy s)
    (hl : i.loadData = !s.doneSend) : busyClocks (step s i) + 1 = busyClocks s := by
  cases ht : s.div.falls with
  | false =>
      have hfall := Divider.toFall_step_of_not_falls ht
      rw [step_of_not_falls i ht]
      unfold busyClocks
      cases hs : s.state with
      | idle => exact absurd hs h.state
      | send => simp only; omega
      | done => simp only; split <;> omega
  | true =>
      have h1 := (Divider.falls_iff s.div).mp ht
      have hfall := Divider.toFall_step_of_falls ht
      cases hs : s.state with
      | idle => exact absurd hs h.state
      | send =>
          by_cases hc : s.dataCount = 7
          · have h0 := remaining_eq_zero_iff.mpr hc
            rw [step_last ht hr hs hc]
            simp only [busyClocks,hs,h.doneSend_of_send hs,Bool.false_eq_true,if_false]
            omega
          · have hrem := remaining_succ hc
            rw [step_shift ht hr hs hc]
            simp only [busyClocks,hs]
            omega
      | done =>
          cases hd : s.doneSend with
          | false =>
              rw [step_acknowledge ht hr hs (by rw [hl,hd]; rfl)]
              simp only [busyClocks,hs,hd,if_true,Bool.false_eq_true,if_false]
              omega
          | true =>
              rw [step_release ht hr hs (by rw [hl,hd]; rfl)]
              simp only [busyClocks,hs,hd,if_true]
              omega

theorem toFall_step_of_free {s : State} {i : Input} (hr : i.resetN = true) (h : Free s)
    (hl : i.loadData = true) (hn : latched s i = none) :
    (step s i).div.toFall + 1 = s.div.toFall := by
  rw [step_div]
  apply Divider.toFall_step_of_not_falls
  cases ht : s.div.falls with
  | false => rfl
  | true => simp [latched,ht,hr,h.state,hl] at hn

end FpgaTest.OledSpi
