import FpgaTest.CharRom
import FpgaTest.ClockedMachine
import FpgaTest.DelayGen
import FpgaTest.OledSpi

/-!
# The display controller

`oledControl.v` with its instances, the SPI engine and the delay generator. As
in the DAC the controller reads `spiDone` and `delayDone` as they are before the
clock edge, and the engine reads `spiData` and `spiLoadData` as they are after
it.

Most states offer one byte and move on when the engine acknowledges it. DELAY
and WAIT_SPI return to the state named by `nextState`. The byte counter of the
glyph is not reset, the engine is wired to RESET_N alone, and the state
FULL_DISPLAY has no branch and is never entered.
-/
namespace FpgaTest.OledControl
open ClockedMachine CharRom

inductive Fsm where
  | idel | delay | init | reset | chargPump | chargPump1 | waitSpi | preCharg | preCharg1
  | vbatOn | contrast | contrast1 | segRemap | scanDir | comPin | comPin1 | displayOn
  | done | pageAddr | pageAddr1 | pageAddr2 | columnAddr | sendData
  deriving DecidableEq, Repr

structure Input where
  resetN : Bool
  resetBtn : Bool
  sendData : BitVec 7
  sendDataValid : Bool
  deriving DecidableEq, Repr

def Input.reset (i : Input) : Bool := !i.resetN || i.resetBtn

/-- The registers written by the controller's own block. -/
structure Controller where
  state : Fsm
  nextState : Fsm
  oledVdd : Bool
  oledVbat : Bool
  oledResetN : Bool
  oledDcN : Bool
  startDelay : Bool
  spiData : BitVec 8
  spiLoadData : Bool
  currPage : BitVec 2
  sendDone : Bool
  columnAddr : BitVec 8
  byteCounter : BitVec 4
  deriving DecidableEq, Repr

structure State where
  ctrl : Controller
  spi : OledSpi.State
  delay : DelayGen.State 18
  deriving DecidableEq, Repr

/-- Offer a byte; on the acknowledgement withdraw it and do the rest. -/
def Controller.offer (c : Controller) (spiDone : Bool) (byte : BitVec 8)
    (acknowledged : Controller → Controller) : Controller :=
  let c' := { c with spiData := byte, spiLoadData := true }
  if spiDone then acknowledged { c' with spiLoadData := false } else c'

/-- Wait for the engine and go on in the given state. -/
def Controller.waitFor (next : Fsm) (c : Controller) : Controller :=
  { c with state := .waitSpi, nextState := next }

/-- SEND_DATA: the only state in which `nextState` is written before the
acknowledgement. -/
def Controller.sendData (c : Controller) (spiDone : Bool) (charBitMap : BitVec 64) : Controller :=
  let c' := { c with
    spiData := column charBitMap c.byteCounter.toNat
    spiLoadData := true
    oledDcN := true }
  if spiDone then
    let c'' := { c' with
      columnAddr := c.columnAddr + 1
      spiLoadData := false
      state := .waitSpi }
    if c.byteCounter ≠ 1 then
      { c'' with byteCounter := c.byteCounter - 1, nextState := .sendData }
    else c''
  else { c' with nextState := .done, sendDone := true }

/-- DONE: a character is accepted, or the page is full and the next page is
addressed first. -/
def Controller.done (c : Controller) (sendDataValid : Bool) : Controller :=
  let c' := { c with sendDone := false }
  if sendDataValid && c.columnAddr != 128 && !c.sendDone then
    { c' with state := .sendData, byteCounter := 8 }
  else if sendDataValid && c.columnAddr == 128 && !c.sendDone then
    { c' with state := .pageAddr, columnAddr := 0, byteCounter := 8 }
  else c'

def Controller.step (c : Controller) (i : Input) (spiDone delayDone : Bool) : Controller :=
  if i.reset then
    { c with
      state := .idel, nextState := .idel, oledVdd := true, oledVbat := true,
      oledResetN := true, oledDcN := true, startDelay := false, spiData := 0,
      spiLoadData := false, currPage := 0, sendDone := false, columnAddr := 0 }
  else match c.state with
  | .idel =>
      { c with
        oledVbat := true, oledResetN := true, oledDcN := false, oledVdd := false,
        state := .delay, nextState := .init }
  | .delay =>
      let c' := { c with startDelay := true }
      if delayDone then { c' with state := c.nextState, startDelay := false } else c'
  | .init => c.offer spiDone 0xae fun c =>
      { c with oledResetN := false, state := .delay, nextState := .reset }
  | .reset => { c with oledResetN := true, state := .delay, nextState := .chargPump }
  | .chargPump => c.offer spiDone 0x8d (.waitFor .chargPump1)
  | .waitSpi => if !spiDone then { c with state := c.nextState } else c
  | .chargPump1 => c.offer spiDone 0x14 (.waitFor .preCharg1)
  | .preCharg => c.offer spiDone 0xd9 (.waitFor .preCharg1)
  | .preCharg1 => c.offer spiDone 0xf1 (.waitFor .vbatOn)
  | .vbatOn => { c with oledVbat := false, state := .delay, nextState := .contrast }
  | .contrast => c.offer spiDone 0x81 (.waitFor .contrast1)
  | .contrast1 => c.offer spiDone 0xff (.waitFor .segRemap)
  | .segRemap => c.offer spiDone 0xa0 (.waitFor .scanDir)
  | .scanDir => c.offer spiDone 0xc0 (.waitFor .comPin)
  | .comPin => c.offer spiDone 0xda (.waitFor .comPin1)
  | .comPin1 => c.offer spiDone 0x00 (.waitFor .displayOn)
  | .displayOn => c.offer spiDone 0xaf (.waitFor .pageAddr)
  | .pageAddr => { c with oledDcN := false }.offer spiDone 0x22 (.waitFor .pageAddr1)
  | .pageAddr1 => c.offer spiDone (c.currPage.setWidth 8) fun c' =>
      { c' with state := .waitSpi, currPage := c.currPage + 1, nextState := .pageAddr2 }
  | .pageAddr2 => c.offer spiDone (c.currPage.setWidth 8) (.waitFor .columnAddr)
  | .columnAddr => c.offer spiDone 0x10 (.waitFor .done)
  | .done => c.done i.sendDataValid
  | .sendData => c.sendData spiDone (glyph i.sendData)

def delayLimit : BitVec 18 := 200000

/-- The controller's registers after the edge. -/
def nextCtrl (s : State) (i : Input) : Controller :=
  s.ctrl.step i s.spi.doneSend s.delay.delayDone

/-- What the engine is offered at the edge. -/
def spiInput (s : State) (i : Input) : OledSpi.Input :=
  ⟨i.resetN,(nextCtrl s i).spiData,(nextCtrl s i).spiLoadData⟩

def step (s : State) (i : Input) : State where
  ctrl := nextCtrl s i
  spi := OledSpi.step s.spi (spiInput s i)
  delay := DelayGen.step delayLimit s.delay s.ctrl.startDelay

/-- The byte that the engine latches at the edge, with the data/command line
next to it. -/
def latched (s : State) (i : Input) : Option (Bool × BitVec 8) :=
  (OledSpi.latched s.spi (spiInput s i)).map fun b => ((nextCtrl s i).oledDcN,b)

/-- Register contents after configuration of the device. -/
def powerUp : State :=
  ⟨⟨.idel,.idel,false,false,false,false,false,0,false,0,false,0,0⟩,
    ⟨.initial 4,0,0,.idle,false,false,false⟩,⟨0,false⟩⟩

@[simp] theorem step_ctrl (s : State) (i : Input) : (step s i).ctrl = nextCtrl s i := rfl
@[simp] theorem step_spi (s : State) (i : Input) :
    (step s i).spi = OledSpi.step s.spi (spiInput s i) := rfl
@[simp] theorem step_delay (s : State) (i : Input) :
    (step s i).delay = DelayGen.step delayLimit s.delay s.ctrl.startDelay := rfl
@[simp] theorem spiInput_resetN (s : State) (i : Input) : (spiInput s i).resetN = i.resetN := rfl
@[simp] theorem spiInput_dataIn (s : State) (i : Input) :
    (spiInput s i).dataIn = (nextCtrl s i).spiData := rfl
@[simp] theorem spiInput_loadData (s : State) (i : Input) :
    (spiInput s i).loadData = (nextCtrl s i).spiLoadData := rfl

theorem Input.resetN_of_not_reset {i : Input} (h : i.reset = false) : i.resetN = true := by
  simp only [Input.reset,Bool.or_eq_false_iff,Bool.not_eq_false'] at h
  exact h.1

end FpgaTest.OledControl
