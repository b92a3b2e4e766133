import FpgaTest.ClockedMachine
import FpgaTest.DacSpi
import FpgaTest.DelayGen

/-!
# The DAC controller

`cn0531.v` with its two instances, the SPI engine and the delay generator. The
controller reads `spi_done` and `delayDone` as they are before the clock edge;
the engine, when its divided clock rises at that edge, reads `spiData` and
`spiLoadData` as they are after it.

The reset of the controller is RESET_N or the push button. The engine is wired to
RESET_N alone, and `startDelay` is missing from the reset branch.
-/
namespace FpgaTest.Cn0531
open ClockedMachine

inductive Fsm where
  | config | delay | init | idle | send
  deriving DecidableEq, Repr

structure Input where
  resetN : Bool
  resetBtn : Bool
  loadData : Bool
  data : BitVec 20
  deriving DecidableEq, Repr

def Input.reset (i : Input) : Bool := !i.resetN || i.resetBtn

/-- The registers written by the controller's own block. -/
structure Controller where
  state : Fsm
  spiData : BitVec 24
  spiLoadData : Bool
  startDelay : Bool
  led : BitVec 7
  deriving DecidableEq, Repr

structure State where
  ctrl : Controller
  spi : DacSpi.State
  delay : DelayGen.State 25
  deriving DecidableEq, Repr

def configWord : BitVec 24 := 0x200010

def initWord : BitVec 24 := 0x17FFFF

/-- `{4'b0001, data}`. -/
def dataWord (data : BitVec 20) : BitVec 24 := 1#4 ++ data

/-- `led[k] <= 1`. -/
def ledOn (led : BitVec 7) (k : ℕ) : BitVec 7 := led ||| BitVec.twoPow 7 k

/-- `led[k] <= 0`. -/
def ledOff (led : BitVec 7) (k : ℕ) : BitVec 7 := led &&& ~~~BitVec.twoPow 7 k

def Controller.step (c : Controller) (i : Input) (spiDone delayDone : Bool) : Controller :=
  if i.reset then
    { c with spiData := 0, spiLoadData := false, state := .config, led := ledOn 0 0 }
  else match c.state with
  | .config =>
      let c' := { c with
        spiData := configWord
        spiLoadData := true
        led := ledOn (ledOff c.led 0) 1 }
      if spiDone then
        { c' with spiLoadData := false, led := ledOff c'.led 1, state := .delay }
      else c'
  | .delay =>
      let c' := { c with startDelay := true }
      if delayDone then { c' with state := .init, startDelay := false } else c'
  | .init =>
      let c' := { c with spiData := initWord, spiLoadData := true, led := ledOn c.led 2 }
      if spiDone then
        { c' with spiLoadData := false, led := ledOff c'.led 2, state := .idle }
      else c'
  | .idle =>
      let c' := { c with led := ledOn c.led 6 }
      if i.loadData then { c' with state := .send } else c'
  | .send =>
      let c' := { c with
        spiData := dataWord i.data
        spiLoadData := true
        led := ledOff c.led 6 }
      if spiDone then { c' with spiLoadData := false, state := .idle } else c'

def delayLimit : BitVec 25 := 10000000

/-- The controller's registers after the edge. -/
def nextCtrl (s : State) (i : Input) : Controller :=
  s.ctrl.step i s.spi.spiDone s.delay.delayDone

/-- What the engine is offered at the edge. -/
def spiInput (s : State) (i : Input) : DacSpi.Input :=
  ⟨i.resetN,(nextCtrl s i).spiData,(nextCtrl s i).spiLoadData⟩

def step (s : State) (i : Input) : State where
  ctrl := nextCtrl s i
  spi := DacSpi.step s.spi (spiInput s i)
  delay := DelayGen.step delayLimit s.delay s.ctrl.startDelay

/-- The word that the engine latches at the edge. -/
def latched (s : State) (i : Input) : Option (BitVec 24) := DacSpi.latched s.spi (spiInput s i)

/-- Register contents after configuration of the device. -/
def powerUp : State := ⟨⟨.config,0,false,false,0⟩,DacSpi.powerUp,⟨0,false⟩⟩

@[simp] theorem step_ctrl (s : State) (i : Input) : (step s i).ctrl = nextCtrl s i := rfl
@[simp] theorem step_spi (s : State) (i : Input) :
    (step s i).spi = DacSpi.step s.spi (spiInput s i) := rfl
@[simp] theorem step_delay (s : State) (i : Input) :
    (step s i).delay = DelayGen.step delayLimit s.delay s.ctrl.startDelay := rfl
@[simp] theorem spiInput_resetN (s : State) (i : Input) : (spiInput s i).resetN = i.resetN := rfl
@[simp] theorem spiInput_dataIn (s : State) (i : Input) :
    (spiInput s i).dataIn = (nextCtrl s i).spiData := rfl
@[simp] theorem spiInput_spiLoad (s : State) (i : Input) :
    (spiInput s i).spiLoad = (nextCtrl s i).spiLoadData := rfl

theorem Input.resetN_of_not_reset {i : Input} (h : i.reset = false) : i.resetN = true := by
  simp only [Input.reset,Bool.or_eq_false_iff,Bool.not_eq_false'] at h
  exact h.1

/-- The word offered in a state and the state that follows the acknowledgement. The two other
states leave `spiLoadData` alone. -/
def Fsm.request (data : BitVec 20) : Fsm → Option (BitVec 24 × Fsm)
  | .config => some (configWord,.delay)
  | .init => some (initWord,.idle)
  | .send => some (dataWord data,.idle)
  | .delay => none
  | .idle => none

variable {s : State} {i : Input} {w : BitVec 24} {next : Fsm}

theorem request_send (hs : s.ctrl.state = .send) (data : BitVec 20) :
    s.ctrl.state.request data = some (dataWord data,.idle) := by
  rw [hs]
  rfl

theorem nextCtrl_reset (hr : i.reset = true) :
    (nextCtrl s i).state = .config ∧ (nextCtrl s i).spiLoadData = false := by
  simp [nextCtrl,Controller.step,hr]

theorem nextCtrl_offered (hr : i.reset = false) (h : s.ctrl.state.request i.data = some (w,next))
    (hd : s.spi.spiDone = false) :
    (nextCtrl s i).state = s.ctrl.state ∧ (nextCtrl s i).spiData = w ∧
      (nextCtrl s i).spiLoadData = true := by
  cases hs : s.ctrl.state <;> simp only [hs,Fsm.request,reduceCtorEq,Option.some.injEq,
    Prod.mk.injEq] at h <;> simp [nextCtrl,Controller.step,hr,hs,hd,h.1]

theorem nextCtrl_acknowledged (hr : i.reset = false)
    (h : s.ctrl.state.request i.data = some (w,next)) (hd : s.spi.spiDone = true) :
    (nextCtrl s i).state = next ∧ (nextCtrl s i).spiLoadData = false := by
  cases hs : s.ctrl.state <;> simp only [hs,Fsm.request,reduceCtorEq,Option.some.injEq,
    Prod.mk.injEq] at h <;> simp [nextCtrl,Controller.step,hr,hs,hd,h.2]

theorem nextCtrl_waiting (hr : i.reset = false)
    (hs : s.ctrl.state = .delay ∨ s.ctrl.state = .idle) (hl : s.ctrl.spiLoadData = false) :
    (nextCtrl s i).spiLoadData = false := by
  rcases hs with hs | hs <;>
    simp only [nextCtrl,Controller.step,hr,hs,Bool.false_eq_true,if_false] <;> split <;> exact hl

theorem nextCtrl_delay (hr : i.reset = false) (hs : s.ctrl.state = .delay) :
    (nextCtrl s i).state = if s.delay.delayDone then .init else .delay := by
  simp only [nextCtrl,Controller.step,hr,hs,Bool.false_eq_true,if_false]
  split <;> rfl

theorem nextCtrl_idle (hr : i.reset = false) (hs : s.ctrl.state = .idle) :
    (nextCtrl s i).state = if i.loadData then .send else .idle := by
  simp only [nextCtrl,Controller.step,hr,hs,Bool.false_eq_true,if_false]
  split <;> rfl

theorem nextCtrl_startDelay (hr : i.reset = false)
    (h : s.ctrl.state.request i.data = some (w,next)) :
    (nextCtrl s i).startDelay = s.ctrl.startDelay := by
  cases hs : s.ctrl.state <;> simp only [hs,Fsm.request,reduceCtorEq] at h <;>
    simp only [nextCtrl,Controller.step,hr,hs,Bool.false_eq_true,if_false] <;> split <;> rfl

theorem nextCtrl_startDelay_delay (hr : i.reset = false) (hs : s.ctrl.state = .delay)
    (hd : s.delay.delayDone = false) : (nextCtrl s i).startDelay = true := by
  simp [nextCtrl,Controller.step,hr,hs,hd]

/-- The engine has finished with the last request, acknowledging it or free. -/
def Settled (s : DacSpi.State) : Prop := DacSpi.Acknowledging s ∨ DacSpi.Free s

theorem settled_step (hr : i.reset = false) (h : Settled s.spi)
    (hl : (nextCtrl s i).spiLoadData = false) :
    latched s i = none ∧ Settled (step s i).spi := by
  have hrN := Input.resetN_of_not_reset hr
  refine ⟨DacSpi.latched_of_not_load hl,?_⟩
  rcases h with h | h
  · exact h.step hrN hl
  · rcases h.step (i := spiInput s i) hrN with ⟨-,hf⟩ | ⟨hl',-⟩
    · exact .inr hf
    · rw [spiInput_spiLoad,hl] at hl'
      contradiction

theorem offer_step (hr : i.reset = false) (h : s.ctrl.state.request i.data = some (w,next))
    (hf : DacSpi.Free s.spi) :
    (step s i).ctrl.state = s.ctrl.state ∧
      ((latched s i = none ∧ DacSpi.Free (step s i).spi) ∨
        (latched s i = some w ∧ DacSpi.Busy (step s i).spi)) := by
  obtain ⟨hs,hw,-⟩ := nextCtrl_offered hr h hf.spiDone
  refine ⟨hs,?_⟩
  rcases hf.step (i := spiInput s i) (Input.resetN_of_not_reset hr) with ⟨hn,hf'⟩ | ⟨-,hn,hb⟩
  · exact .inl ⟨hn,hf'⟩
  · exact .inr ⟨hn.trans (congrArg some hw),hb⟩

/-- A busy engine takes nothing; the controller holds the request until it is
acknowledged and then withdraws it. -/
theorem busy_step (hr : i.reset = false) (h : s.ctrl.state.request i.data = some (w,next))
    (hb : DacSpi.Busy s.spi) :
    latched s i = none ∧
      (((step s i).ctrl.state = s.ctrl.state ∧ DacSpi.Busy (step s i).spi) ∨
        ((step s i).ctrl.state = next ∧ (step s i).ctrl.spiLoadData = false ∧
          Settled (step s i).spi)) := by
  refine ⟨DacSpi.latched_of_not_idle _ hb.state,?_⟩
  cases hd : s.spi.spiDone with
  | false =>
      obtain ⟨hs,-,hl⟩ := nextCtrl_offered hr h hd
      exact .inl ⟨hs,hb.step (Input.resetN_of_not_reset hr) hl⟩
  | true =>
      obtain ⟨hs,hl⟩ := nextCtrl_acknowledged hr h hd
      exact .inr ⟨hs,hl,(settled_step hr (.inl (hb.acknowledging hd)) hl).2⟩

/-- Where the two sides of the handshake stand, from the first request of a free
engine on. -/
inductive Paired (s : State) : Prop
  | waiting : s.ctrl.state = .delay ∨ s.ctrl.state = .idle → s.ctrl.spiLoadData = false →
      Settled s.spi → Paired s
  | offering (hs : s.ctrl.state ≠ .delay ∧ s.ctrl.state ≠ .idle) : DacSpi.Free s.spi → Paired s
  | serving (hs : s.ctrl.state ≠ .delay ∧ s.ctrl.state ≠ .idle) : DacSpi.Busy s.spi → Paired s

theorem exists_request {st : Fsm} (h : st ≠ .delay ∧ st ≠ .idle) (data : BitVec 20) :
    ∃ w next, st.request data = some (w,next) ∧ (next = .delay ∨ next = .idle) := by
  cases st with
  | config => exact ⟨_,_,rfl,.inl rfl⟩
  | init | send => exact ⟨_,_,rfl,.inr rfl⟩
  | delay => exact absurd rfl h.1
  | idle => exact absurd rfl h.2

theorem paired_of_settled (hl : s.ctrl.spiLoadData = false) (h : Settled s.spi) : Paired s := by
  by_cases hs : s.ctrl.state = .delay ∨ s.ctrl.state = .idle
  · exact .waiting hs hl h
  · rw [not_or] at hs
    rcases h with h | h
    · exact .serving hs h.busy
    · exact .offering hs h

theorem Paired.step (h : Paired s) (hr : i.reset = false) : Paired (step s i) := by
  cases h with
  | waiting hs hl hset =>
      have hl' := nextCtrl_waiting hr hs hl
      exact paired_of_settled hl' (settled_step hr hset hl').2
  | offering hs hf =>
      obtain ⟨w,next,hq,-⟩ := exists_request hs i.data
      obtain ⟨hs',⟨-,hf'⟩ | ⟨-,hb'⟩⟩ := offer_step hr hq hf
      · exact .offering (by rwa [hs']) hf'
      · exact .serving (by rwa [hs']) hb'
  | serving hs hb =>
      obtain ⟨w,next,hq,hnext⟩ := exists_request hs i.data
      obtain ⟨-,⟨hs',hb'⟩ | ⟨hs',hl',hset⟩⟩ := busy_step hr hq hb
      · exact .serving (by rwa [hs']) hb'
      · exact .waiting (by rwa [hs']) hl' hset

/-- A request in progress comes one clock closer to its end at every edge. -/
theorem Paired.busyClocks_step (h : Paired s) (hr : i.reset = false) (hb : s.spi.state ≠ .idle) :
    DacSpi.busyClocks (Cn0531.step s i).spi + 1 = DacSpi.busyClocks s.spi := by
  have hrN := Input.resetN_of_not_reset hr
  cases h with
  | waiting hs hl hset =>
      have hl' := nextCtrl_waiting hr hs hl
      rcases hset with ha | hf
      · exact DacSpi.busyClocks_step hrN ha.busy (by rw [ha.spiDone]; exact hl')
      · exact absurd hf.state hb
  | offering hs hf => exact absurd hf.state hb
  | serving hs hbusy =>
      obtain ⟨w,next,hq,-⟩ := exists_request hs i.data
      apply DacSpi.busyClocks_step hrN hbusy
      cases hd : s.spi.spiDone with
      | false => exact (nextCtrl_offered hr hq hd).2.2
      | true => exact (nextCtrl_acknowledged hr hq hd).2

end FpgaTest.Cn0531
