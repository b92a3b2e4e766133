import FpgaTest.OledProgram

/-!
# The controller and its engine run the program

`position` reads a program position off the registers of the controller and the
engine. `Stage` is the invariant under which every clock edge without reset is a
`Move` of the program: it says where the two sides of the handshake stand and
what DELAY relies on. In DELAY the engine may still be acknowledging the last
byte, but not as long as the delay runs.

`rank` bounds the clocks up to the next byte. Every edge that takes no byte
lowers it, as long as DONE is not kept waiting for a character.
-/
namespace FpgaTest.OledStages
open CharRom OledControl OledProgram WrappingCounter
open OledSpi (Free Busy Acknowledging Settled busyClocks)

/-- The state that DELAY and WAIT_SPI return to, else the state itself. -/
def point (c : Controller) : Fsm :=
  match c.state with
  | .delay | .waitSpi => c.nextState
  | st => st

def position (s : State) : Position where
  point := point s.ctrl
  taken := offers s.ctrl.state && s.spi.state != .idle
  currPage := s.ctrl.currPage
  columnAddr := s.ctrl.columnAddr
  byteCounter := s.ctrl.byteCounter
  sendDone := s.ctrl.sendDone

variable {s : State} {i : Input}

theorem point_of_offers {c : Controller} (h : offers c.state = true) : point c = c.state := by
  unfold point
  cases hs : c.state <;> simp_all [offers]

theorem point_of_passes {c : Controller} (h : passes c.state = true) : point c = c.state := by
  unfold point
  cases hs : c.state <;> simp_all [passes]

/-- The data/command line after an edge in an offering state. -/
def commandLine (c : Controller) : Bool :=
  if c.state = .pageAddr then false else if c.state = .sendData then true else c.oledDcN

theorem nextCtrl_offered (hr : i.reset = false) (ho : offers s.ctrl.state = true)
    (hd : s.spi.doneSend = false) :
    nextCtrl s i = { s.ctrl with
      nextState := if s.ctrl.state = .sendData then .done else s.ctrl.nextState
      oledDcN := commandLine s.ctrl
      spiData := (position s).byte (glyph i.sendData)
      spiLoadData := true
      sendDone := s.ctrl.sendDone || decide (s.ctrl.state = .sendData) } := by
  cases hs : s.ctrl.state <;> rw [hs] at ho <;> first
    | contradiction
    | simp [nextCtrl,Controller.step,hr,hs,hd,Controller.offer,Controller.sendData,commandLine,
        position,point,Position.byte]

theorem nextCtrl_acknowledged (hr : i.reset = false) (ho : offers s.ctrl.state = true)
    (hd : s.spi.doneSend = true) (hnext : s.ctrl.state = .sendData → s.ctrl.nextState = .done) :
    nextCtrl s i = { s.ctrl with
      state := if s.ctrl.state = .init then .delay else .waitSpi
      nextState := (position s).follow
      oledResetN := if s.ctrl.state = .init then false else s.ctrl.oledResetN
      oledDcN := commandLine s.ctrl
      spiData := (position s).byte (glyph i.sendData)
      spiLoadData := false
      currPage := (position s).advance.currPage
      columnAddr := (position s).advance.columnAddr
      byteCounter := (position s).advance.byteCounter } := by
  by_cases hsend : s.ctrl.state = .sendData
  · have hdone := hnext hsend
    by_cases hb : s.ctrl.byteCounter = 1#4 <;>
      simp [nextCtrl,Controller.step,hr,hsend,hd,Controller.sendData,commandLine,position,point,
        Position.byte,Position.follow,Position.advance,hb,hdone]
  · cases hs : s.ctrl.state <;> rw [hs] at ho hsend <;> first
      | contradiction
      | simp [nextCtrl,Controller.step,hr,hs,hd,Controller.offer,Controller.waitFor,commandLine,
          position,point,Position.byte,Position.follow,Position.advance]

theorem nextCtrl_passed (hr : i.reset = false) (hp : passes s.ctrl.state = true) :
    (nextCtrl s i).state = .delay ∧ (nextCtrl s i).nextState = passed s.ctrl.state ∧
      (nextCtrl s i).spiLoadData = s.ctrl.spiLoadData ∧
      (s.ctrl.state = .idel ∨ s.ctrl.oledDcN = false → (nextCtrl s i).oledDcN = false) ∧
      position (step s i) = { position s with point := passed s.ctrl.state, taken := false } := by
  cases hs : s.ctrl.state <;> rw [hs] at hp <;> first
    | contradiction
    | simp [nextCtrl,Controller.step,hr,hs,passed,position,point,offers]

theorem nextCtrl_delay (hr : i.reset = false) (hs : s.ctrl.state = .delay) :
    nextCtrl s i = { s.ctrl with
      state := if s.delay.delayDone then s.ctrl.nextState else .delay
      startDelay := !s.delay.delayDone } := by
  cases hd : s.delay.delayDone <;> simp [nextCtrl,Controller.step,hr,hs,hd]

theorem nextCtrl_waitSpi (hr : i.reset = false) (hs : s.ctrl.state = .waitSpi) :
    nextCtrl s i = { s.ctrl with
      state := if s.spi.doneSend then .waitSpi else s.ctrl.nextState } := by
  cases hd : s.spi.doneSend <;> simp only [nextCtrl,Controller.step,hr,hs,hd,Bool.false_eq_true,
    if_false,if_true,Bool.not_true,Bool.not_false]
  rw [← hs]

theorem nextCtrl_done (hr : i.reset = false) (hs : s.ctrl.state = .done) :
    nextCtrl s i = s.ctrl.done i.sendDataValid := by
  simp [nextCtrl,Controller.step,hr,hs]

theorem done_startDelay (c : Controller) (valid : Bool) :
    (c.done valid).startDelay = c.startDelay := by
  unfold Controller.done
  split_ifs <;> rfl

theorem sendData_startDelay (c : Controller) (spiDone : Bool) (bitMap : BitVec 64) :
    (c.sendData spiDone bitMap).startDelay = c.startDelay := by
  unfold Controller.sendData
  split_ifs <;> rfl

theorem nextCtrl_startDelay (hr : i.reset = false) :
    (nextCtrl s i).startDelay =
      if s.ctrl.state = .delay then !s.delay.delayDone else s.ctrl.startDelay := by
  by_cases hs : s.ctrl.state = .delay
  · simp [nextCtrl_delay hr hs,hs]
  · cases hd : s.spi.doneSend <;> cases hst : s.ctrl.state <;> rw [hst] at hs <;> first
      | contradiction
      | simp [nextCtrl,Controller.step,hr,hst,hd,Controller.offer,Controller.waitFor,
          done_startDelay,sendData_startDelay]

/-- The delay generator as DELAY relies on it. -/
structure Timed (s : State) : Prop where
  away : s.ctrl.state ≠ .delay → s.ctrl.startDelay = false
  entered : s.ctrl.state = .delay → s.ctrl.startDelay = false → s.delay.counter = 0
  stopped : s.ctrl.startDelay = false → s.delay.delayDone = false
  expired : s.delay.delayDone = true → s.delay.counter = 0

theorem Timed.step (h : Timed s) (hr : i.reset = false)
    (hn : s.ctrl.state = .delay → s.ctrl.nextState ≠ .delay) : Timed (step s i) := by
  have hstart : (OledControl.step s i).ctrl.startDelay = _ := nextCtrl_startDelay hr
  by_cases hs : s.ctrl.state = .delay
  · have hstate : (OledControl.step s i).ctrl.state = _ := congrArg Controller.state
      (nextCtrl_delay hr hs)
    rw [if_pos hs] at hstart
    cases hd : s.delay.delayDone with
    | true =>
        have hne : s.delay.counter ≠ delayLimit := by
          rw [h.expired hd]
          decide
        have hen : s.ctrl.startDelay = true := by
          cases hen : s.ctrl.startDelay with
          | true => rfl
          | false => rw [h.stopped hen] at hd; contradiction
        rw [hd] at hstart hstate
        have hdelay := DelayGen.step_counting hne
        refine ⟨fun _ => hstart,fun hst => absurd (hstate.symm.trans hst) (hn hs),?_,?_⟩
        · simp [hen,hdelay]
        · simp [hen,hdelay]
    | false =>
        rw [hd] at hstart hstate
        refine ⟨fun hst => absurd hstate hst,fun _ hst => ?_,fun hst => ?_,?_⟩
        · rw [hstart] at hst
          contradiction
        · rw [hstart] at hst
          contradiction
        · intro hdone
          simp only [step_delay,DelayGen.step,Bool.and_eq_true,beq_iff_eq] at hdone ⊢
          simp [hdone.1,hdone.2]
  · have hoff := h.away hs
    rw [if_neg hs,hoff] at hstart
    have hdelay : (OledControl.step s i).delay = ⟨0,false⟩ := by
      rw [step_delay,hoff,DelayGen.step_stopped]
    exact ⟨fun _ => hstart,fun _ _ => by rw [hdelay],fun _ => by rw [hdelay],
      fun _ => by rw [hdelay]⟩

/-- Clocks that DELAY still lasts. -/
def delayClocks (s : State) : ℕ :=
  if s.delay.delayDone then 0
  else if s.ctrl.startDelay then remaining delayLimit s.delay.counter + 1
  else 2^18 + 1

theorem delayClocks_le (s : State) : delayClocks s ≤ 2^18+1 :=
  DelayGen.clocksLeft_le delayLimit s.delay s.ctrl.startDelay

theorem delayClocks_step (hr : i.reset = false) (hs : s.ctrl.state = .delay)
    (hd : s.delay.delayDone = false) : delayClocks (step s i) < delayClocks s := by
  have hstart : (step s i).ctrl.startDelay = true := by
    rw [step_ctrl,nextCtrl_startDelay hr,if_pos hs,hd]
    rfl
  have hlt := DelayGen.clocksLeft_step delayLimit hd s.ctrl.startDelay
  rw [← hstart] at hlt
  exact hlt

/-- The engine is still acknowledging, but the delay has just begun. -/
structure Parting (s : State) : Prop where
  spi : Acknowledging s.spi
  early : s.delay.delayDone = false
  clocks : s.delay.counter.toNat + busyClocks s.spi ≤ 10

/-- Where the controller and the engine stand. -/
inductive Phase (s : State) : Prop
  | passing : passes s.ctrl.state = true → s.ctrl.spiLoadData = false → Free s.spi → Phase s
  | delaying : s.ctrl.state = .delay → s.ctrl.spiLoadData = false →
      s.ctrl.nextState ≠ .delay ∧ s.ctrl.nextState ≠ .waitSpi → Free s.spi ∨ Parting s → Phase s
  | waiting : s.ctrl.state = .waitSpi → s.ctrl.spiLoadData = false →
      s.ctrl.nextState ≠ .delay ∧ s.ctrl.nextState ≠ .waitSpi → Settled s.spi → Phase s
  | offering : offers s.ctrl.state = true → Free s.spi → Phase s
  | serving : offers s.ctrl.state = true → Busy s.spi →
      (s.ctrl.state = .sendData → s.ctrl.nextState = .done) →
      s.ctrl.oledDcN = decide (s.ctrl.state = .sendData) → Phase s
  | ready : s.ctrl.state = .done → s.ctrl.spiLoadData = false → Free s.spi → Phase s

/-- The points that rely on the data/command line being low already. -/
def needsCommandLine : Fsm → Bool
  | .idel | .delay | .waitSpi | .pageAddr | .sendData | .done => false
  | _ => true

def CommandLine (c : Controller) : Prop := needsCommandLine (point c) = true → c.oledDcN = false

theorem commandLine_eq {c : Controller} (h : CommandLine c) (ho : offers c.state = true) :
    commandLine c = decide (c.state = .sendData) := by
  unfold CommandLine at h
  rw [point_of_offers ho] at h
  cases hs : c.state <;> simp_all [commandLine,needsCommandLine,offers]

theorem Phase.resumed (hs : s.ctrl.state ≠ .delay ∧ s.ctrl.state ≠ .waitSpi)
    (hl : s.ctrl.spiLoadData = false) (hf : Free s.spi) : Phase s := by
  by_cases ho : offers s.ctrl.state = true
  · exact .offering ho hf
  · by_cases hp : passes s.ctrl.state = true
    · exact .passing hp hl hf
    · refine .ready ?_ hl hf
      cases hst : s.ctrl.state <;> simp_all [offers,passes]

/-- More than a delay lasts. -/
def horizon : ℕ := 2^18 + 100

def detour (next : Fsm) : ℕ := if passes next then 2*horizon else 0

/-- An upper bound for the clocks up to the next byte, when DONE is offered a
character in time. -/
def rank (s : State) (valid : Bool) : ℕ :=
  match s.ctrl.state with
  | .delay => detour s.ctrl.nextState + 30 + delayClocks s
  | .waitSpi => detour s.ctrl.nextState + 20 + busyClocks s.spi
  | .idel | .reset | .vbatOn => horizon
  | .done => 11 + if s.ctrl.sendDone then 2 else if valid then 0 else 1
  | _ => if s.spi.state = .idle then s.spi.div.toFall else 5*horizon + busyClocks s.spi

theorem rank_of_offers (valid : Bool) (ho : offers s.ctrl.state = true) : rank s valid =
    if s.spi.state = .idle then s.spi.div.toFall else 5*horizon + busyClocks s.spi := by
  unfold rank
  cases hs : s.ctrl.state <;> rw [hs] at ho <;> contradiction

theorem rank_of_passes (valid : Bool) (hp : passes s.ctrl.state = true) :
    rank s valid = horizon := by
  unfold rank
  cases hs : s.ctrl.state <;> rw [hs] at hp <;> contradiction

theorem rank_of_ne_done (valid valid' : Bool) (hs : s.ctrl.state ≠ .done) :
    rank s valid = rank s valid' := by
  unfold rank
  cases hst : s.ctrl.state <;> first
    | contradiction
    | rfl

theorem rank_resumed (valid : Bool) (hs : s.ctrl.state ≠ .delay ∧ s.ctrl.state ≠ .waitSpi)
    (hf : Free s.spi) : rank s valid < detour s.ctrl.state + 20 := by
  have hfall := s.spi.div.toFall_le
  by_cases ho : offers s.ctrl.state = true
  · rw [rank_of_offers valid ho,if_pos hf.state]
    omega
  · by_cases hp : passes s.ctrl.state = true
    · rw [rank_of_passes valid hp,detour,if_pos hp]
      omega
    · have hd : s.ctrl.state = .done := by
        cases hst : s.ctrl.state <;> simp_all [offers,passes]
      simp only [rank,hd]
      split_ifs <;> omega

/-- DONE is not kept waiting: a character on offer meets `sendDone` low, and one
is offered when `sendDone` is low. -/
def Fed (s : State) (i : Input) (valid : Bool) : Prop :=
  s.ctrl.state = .done → (i.sendDataValid = true → s.ctrl.sendDone = false) ∧
    (i.sendDataValid = false → s.ctrl.sendDone = false → valid = true)

/-- What an edge without reset does. -/
structure Outcome (s : State) (i : Input) : Prop where
  phase : Phase (step s i)
  command : CommandLine (step s i).ctrl
  move : Move i (position s) (position (step s i)) (latched s i)
  rank : latched s i = none → ∀ valid, Fed s i valid →
    rank (step s i) valid < rank s i.sendDataValid

theorem free_step (hr : i.reset = false) (hf : Free s.spi)
    (hl : (nextCtrl s i).spiLoadData = false) :
    latched s i = none ∧ Free (step s i).spi := by
  have hn : OledSpi.latched s.spi (spiInput s i) = none := OledSpi.latched_of_not_load hl
  refine ⟨by rw [latched,hn]; rfl,?_⟩
  rcases hf.step (i := spiInput s i) (Input.resetN_of_not_reset hr) with ⟨-,hf'⟩ | ⟨hload,-⟩
  · exact hf'
  · rw [spiInput_loadData,hl] at hload
    contradiction

theorem settled_step (hr : i.reset = false) (h : Settled s.spi)
    (hl : (nextCtrl s i).spiLoadData = false) :
    latched s i = none ∧ Settled (step s i).spi := by
  have hn : OledSpi.latched s.spi (spiInput s i) = none := OledSpi.latched_of_not_load hl
  exact ⟨by rw [latched,hn]; rfl,
    (h.step (i := spiInput s i) (Input.resetN_of_not_reset hr) hl).2⟩

theorem passing_outcome (hr : i.reset = false) (hc : CommandLine s.ctrl)
    (hp : passes s.ctrl.state = true) (hl : s.ctrl.spiLoadData = false) (hf : Free s.spi) :
    Outcome s i := by
  obtain ⟨hs',hn',hl',hdc',hpos'⟩ := nextCtrl_passed (s := s) hr hp
  obtain ⟨hlatch,hf'⟩ := free_step hr hf (hl'.trans hl)
  have hpoint : (position s).point = s.ctrl.state := point_of_passes hp
  have hnext : ∀ st, passes st = true → passed st ≠ .delay ∧ passed st ≠ .waitSpi ∧
      passes (passed st) = false := by
    intro st h
    cases st <;> simp_all [passes,passed]
  obtain ⟨hne,hne',hnp⟩ := hnext _ hp
  refine ⟨.delaying hs' (hl'.trans hl) (by rw [step_ctrl,hn']; exact ⟨hne,hne'⟩) (.inl hf'),
    ?_,?_,?_⟩
  · intro _
    apply hdc'
    by_cases hi : s.ctrl.state = .idel
    · exact .inl hi
    · right
      apply hc
      rw [point_of_passes hp]
      cases hs : s.ctrl.state <;> simp_all [passes,needsCommandLine]
  · have ht : (position s).taken = false := by
      cases hs : s.ctrl.state <;> simp_all [passes,position,offers]
    have hmove := Move.pass (i := i) (hpoint ▸ hp) ht
    rw [hpos',hlatch]
    simp only [ht,hpoint] at hmove
    exact hmove
  · intro _ valid _
    have hle := delayClocks_le (step s i)
    rw [rank_of_passes _ hp]
    simp only [OledStages.rank,step_ctrl,hs',hn',detour,hnp,horizon]
    simp only [Bool.false_eq_true,if_false]
    omega

theorem point_of_waits {c : Controller} (h : c.state = .delay ∨ c.state = .waitSpi) :
    point c = c.nextState := by
  rcases h with h | h <;> simp [point,h]

theorem point_of_resumed {c : Controller} (h : c.state ≠ .delay ∧ c.state ≠ .waitSpi) :
    point c = c.state := by
  unfold point
  cases hs : c.state <;> simp_all

/-- DELAY or WAIT_SPI goes on. -/
theorem stayed_outcome {start : Bool} (hc : CommandLine s.ctrl)
    (hs : s.ctrl.state = .delay ∨ s.ctrl.state = .waitSpi)
    (hctrl : nextCtrl s i = { s.ctrl with startDelay := start }) (hlatch : latched s i = none)
    (hphase : Phase (step s i))
    (hrank : ∀ valid, rank (step s i) valid < rank s i.sendDataValid) : Outcome s i := by
  have hpoint : point (nextCtrl s i) = point s.ctrl := by rw [hctrl]; rfl
  have hpos : position (step s i) = position s := by
    have ho : offers s.ctrl.state = false := by rcases hs with hs | hs <;> rw [hs] <;> rfl
    simp only [position,step_ctrl,hpoint]
    rw [hctrl]
    simp [ho]
  refine ⟨hphase,?_,?_,fun _ valid _ => hrank valid⟩
  · rw [step_ctrl,CommandLine,hpoint,hctrl]
    exact hc
  · rw [hpos,hlatch]
    exact .wait _

/-- DELAY or WAIT_SPI returns to the state that was named. -/
theorem resumed_outcome {start : Bool} (hc : CommandLine s.ctrl)
    (hs : s.ctrl.state = .delay ∨ s.ctrl.state = .waitSpi)
    (hn : s.ctrl.nextState ≠ .delay ∧ s.ctrl.nextState ≠ .waitSpi)
    (hl : s.ctrl.spiLoadData = false)
    (hctrl : nextCtrl s i = { s.ctrl with state := s.ctrl.nextState, startDelay := start })
    (hlatch : latched s i = none) (hf : Free (step s i).spi)
    (hrank : detour s.ctrl.nextState + 20 ≤ rank s i.sendDataValid) : Outcome s i := by
  have hn' : (step s i).ctrl.state ≠ .delay ∧ (step s i).ctrl.state ≠ .waitSpi := by
    rw [step_ctrl,hctrl]
    exact hn
  have hpoint : point (nextCtrl s i) = point s.ctrl := by
    rw [point_of_waits hs]
    exact (point_of_resumed hn').trans (by rw [step_ctrl,hctrl])
  have hpos : position (step s i) = position s := by
    have ho : offers s.ctrl.state = false := by rcases hs with hs | hs <;> rw [hs] <;> rfl
    have hidle : (OledSpi.step s.spi (spiInput s i)).state = .idle := hf.state
    simp only [position,step_ctrl,step_spi,hpoint,hidle]
    rw [hctrl]
    simp [ho]
  refine ⟨.resumed hn' (by rw [step_ctrl,hctrl]; exact hl) hf,?_,?_,?_⟩
  · rw [step_ctrl,CommandLine,hpoint,hctrl]
    exact hc
  · rw [hpos,hlatch]
    exact .wait _
  · intro _ valid _
    have hlt := rank_resumed valid hn' hf
    simp only [step_ctrl,hctrl] at hlt
    exact hlt.trans_le hrank

/-- A free engine stays free while DELAY runs, and one that is acknowledging is
freed early in it. -/
theorem parting_step (hr : i.reset = false) (hl : (nextCtrl s i).spiLoadData = false)
    (h : Free s.spi ∨ Parting s) :
    latched s i = none ∧ (Free (step s i).spi ∨ Parting (step s i)) := by
  rcases h with hf | hp
  · obtain ⟨hlatch,hf'⟩ := free_step hr hf hl
    exact ⟨hlatch,.inl hf'⟩
  · obtain ⟨hlatch,hset⟩ := settled_step hr (.inl hp.spi) hl
    refine ⟨hlatch,?_⟩
    rcases hset with hack | hf'
    · right
      have hclocks := hp.clocks
      have hbusy := OledSpi.busyClocks_step (i := spiInput s i) (Input.resetN_of_not_reset hr)
        hp.spi.busy (by rw [spiInput_loadData,hl,hp.spi.doneSend]; rfl)
      have hlimit : (delayLimit : BitVec 18).toNat = 200000 := rfl
      have hne : s.delay.counter ≠ delayLimit := by
        intro he
        rw [he,hlimit] at hclocks
        omega
      cases hen : s.ctrl.startDelay with
      | false =>
          refine ⟨hack,?_,?_⟩ <;> simp only [step_delay,step_spi,hen,DelayGen.step_stopped]
          change 0 + _ ≤ 10
          omega
      | true =>
          have hcount : (s.delay.counter+1).toNat ≤ s.delay.counter.toNat+1 := by bv_omega
          refine ⟨hack,?_,?_⟩ <;> simp only [step_delay,step_spi,hen,DelayGen.step_counting hne]
          omega
    · exact .inl hf'

theorem delaying_outcome (hr : i.reset = false) (hc : CommandLine s.ctrl)
    (hs : s.ctrl.state = .delay) (hl : s.ctrl.spiLoadData = false)
    (hn : s.ctrl.nextState ≠ .delay ∧ s.ctrl.nextState ≠ .waitSpi)
    (h : Free s.spi ∨ Parting s) : Outcome s i := by
  have hctrl := nextCtrl_delay (i := i) hr hs
  have hl' : (nextCtrl s i).spiLoadData = false := by rw [hctrl]; exact hl
  cases hd : s.delay.delayDone with
  | true =>
      have hf : Free s.spi := by
        rcases h with hf | hp
        · exact hf
        · rw [hp.early] at hd
          contradiction
      obtain ⟨hlatch,hf'⟩ := free_step hr hf hl'
      rw [hd,if_pos rfl] at hctrl
      refine resumed_outcome hc (.inl hs) hn hl hctrl hlatch hf' ?_
      simp only [rank,hs]
      omega
  | false =>
      obtain ⟨hlatch,hnext⟩ := parting_step hr hl' h
      rw [hd,if_neg Bool.false_ne_true,← hs] at hctrl
      have hdelay := delayClocks_step hr hs hd
      refine stayed_outcome hc (.inl hs) hctrl hlatch ?_ ?_
      · exact .delaying (by rw [step_ctrl,hctrl]; exact hs) hl' (by rw [step_ctrl,hctrl]; exact hn)
          hnext
      · intro valid
        have hs' : (nextCtrl s i).state = .delay := by rw [hctrl]; exact hs
        have hn' : (nextCtrl s i).nextState = s.ctrl.nextState := by rw [hctrl]
        simp only [rank,step_ctrl,hs,hs',hn']
        omega

theorem waiting_outcome (hr : i.reset = false) (hc : CommandLine s.ctrl)
    (hs : s.ctrl.state = .waitSpi) (hl : s.ctrl.spiLoadData = false)
    (hn : s.ctrl.nextState ≠ .delay ∧ s.ctrl.nextState ≠ .waitSpi) (h : Settled s.spi) :
    Outcome s i := by
  have hctrl := nextCtrl_waitSpi (i := i) hr hs
  have hl' : (nextCtrl s i).spiLoadData = false := by rw [hctrl]; exact hl
  cases hd : s.spi.doneSend with
  | false =>
      have hf := h.free hd
      obtain ⟨hlatch,hf'⟩ := free_step hr hf hl'
      rw [hd,if_neg Bool.false_ne_true] at hctrl
      refine resumed_outcome hc (.inr hs) hn hl hctrl hlatch hf' ?_
      simp only [rank,hs]
      omega
  | true =>
      obtain ⟨hlatch,hset⟩ := settled_step hr h hl'
      have hack : Acknowledging s.spi := by
        rcases h with h | h
        · exact h
        · rw [h.doneSend] at hd
          contradiction
      have hbusy := OledSpi.busyClocks_step (i := spiInput s i) (Input.resetN_of_not_reset hr)
        hack.busy (by rw [spiInput_loadData,hl',hd]; rfl)
      rw [hd,if_pos rfl,← hs] at hctrl
      refine stayed_outcome hc (.inr hs) hctrl hlatch ?_ ?_
      · exact .waiting (by rw [step_ctrl,hctrl]; exact hs) hl' (by rw [step_ctrl,hctrl]; exact hn)
          hset
      · intro valid
        have hs' : (nextCtrl s i).state = .waitSpi := by rw [hctrl]; exact hs
        have hn' : (nextCtrl s i).nextState = s.ctrl.nextState := by rw [hctrl]
        simp only [rank,step_ctrl,step_spi,hs,hs',hn']
        omega

theorem position_offered (hr : i.reset = false) (ho : offers s.ctrl.state = true)
    (hd : s.spi.doneSend = false) :
    position (step s i) = { position s with
      taken := (OledSpi.step s.spi (spiInput s i)).state != .idle
      sendDone := (position s).sendDone || decide ((position s).point = .sendData) } := by
  have hctrl := nextCtrl_offered hr ho hd
  have ho' : offers (nextCtrl s i).state = true := by rw [hctrl]; exact ho
  have hpoint : point (nextCtrl s i) = point s.ctrl := by
    rw [point_of_offers ho,point_of_offers ho',hctrl]
  simp only [position,step_ctrl,step_spi,hpoint,ho',Bool.true_and]
  simp only [hctrl,point_of_offers ho]

theorem held_move (hr : i.reset = false) (ho : offers s.ctrl.state = true)
    (hd : s.spi.doneSend = false)
    (ht : ((OledSpi.step s.spi (spiInput s i)).state != .idle) = (position s).taken) :
    Move i (position s) (position (step s i)) none := by
  rw [position_offered hr ho hd,ht]
  by_cases hs : (position s).point = .sendData
  · have hmove := Move.hold (i := i) hs
    simpa only [hs,decide_true,Bool.or_true] using hmove
  · have hmove := Move.wait (i := i) (position s)
    simp only [hs,decide_false,Bool.or_false]
    exact hmove

theorem command_offered (hr : i.reset = false) (hc : CommandLine s.ctrl)
    (ho : offers s.ctrl.state = true) (hd : s.spi.doneSend = false) :
    CommandLine (step s i).ctrl ∧
      (step s i).ctrl.oledDcN = decide ((step s i).ctrl.state = .sendData) := by
  have hctrl := nextCtrl_offered hr ho hd
  have hdc : (nextCtrl s i).oledDcN = decide ((nextCtrl s i).state = .sendData) := by
    rw [hctrl]
    exact commandLine_eq hc ho
  have ho' : offers (nextCtrl s i).state = true := by rw [hctrl]; exact ho
  refine ⟨?_,hdc⟩
  intro hneeds
  rw [step_ctrl,point_of_offers ho'] at hneeds
  rw [step_ctrl,hdc]
  cases hs : (nextCtrl s i).state <;> simp_all [needsCommandLine]

theorem offering_outcome (hr : i.reset = false) (hc : CommandLine s.ctrl)
    (ho : offers s.ctrl.state = true) (hf : Free s.spi) : Outcome s i := by
  have hctrl := nextCtrl_offered hr ho hf.doneSend
  have hs' : (nextCtrl s i).state = s.ctrl.state := by rw [hctrl]
  have ho' : offers (nextCtrl s i).state = true := hs' ▸ ho
  have hl' : (nextCtrl s i).spiLoadData = true := by rw [hctrl]
  have hresetN := Input.resetN_of_not_reset hr
  obtain ⟨hc',hdc'⟩ := command_offered hr hc ho hf.doneSend
  have htaken : (position s).taken = false := by simp [position,hf.state]
  rcases hf.step (i := spiInput s i) hresetN with ⟨hn,hf'⟩ | ⟨-,hlatch,hb',-⟩
  · have hnone : latched s i = none := by rw [latched,hn]; rfl
    refine ⟨.offering ho' hf',hc',?_,?_⟩
    · rw [hnone]
      exact held_move hr ho hf.doneSend (by rw [htaken,hf'.state]; rfl)
    · intro _ valid _
      have hfall := OledSpi.toFall_step_of_free hresetN hf hl' hn
      rw [rank_of_offers _ ho,rank_of_offers _ ho',if_pos hf.state,step_spi,if_pos hf'.state]
      omega
  · have hsome : latched s i = some ((position s).transfer (glyph i.sendData)) := by
      rw [latched,hlatch,Option.map_some,spiInput_dataIn,← step_ctrl,hdc',step_ctrl,hs',hctrl]
      simp only [Position.transfer,position,point_of_offers ho]
    refine ⟨.serving ho' hb' ?_ hdc',hc',?_,?_⟩
    · intro hs
      rw [step_ctrl] at hs ⊢
      rw [hs'] at hs
      rw [hctrl]
      exact if_pos hs
    · have hpoint : (position s).point = s.ctrl.state := point_of_offers ho
      have hmove := Move.take (i := i) (hpoint ▸ ho) htaken
      rw [position_offered hr ho hf.doneSend,hsome]
      have hbusy : ((OledSpi.step s.spi (spiInput s i)).state != .idle) = true := by
        simpa using hb'.state
      rw [hbusy]
      exact hmove
    · intro hnone
      rw [hsome] at hnone
      contradiction

theorem resumable_follow {p : Position} (h : offers p.point = true) :
    p.follow ≠ .delay ∧ p.follow ≠ .waitSpi := by
  cases hp : p.point <;> rw [hp] at h <;> first
    | contradiction
    | (simp only [Position.follow,hp]; split <;> decide)
    | simp [Position.follow,hp]

theorem command_follow {p : Position} (hn : needsCommandLine p.follow = true) :
    p.point ≠ .sendData := by
  intro hs
  simp only [Position.follow,hs] at hn
  split at hn <;> contradiction

theorem nextCtrl_withdrawn (hr : i.reset = false) (hc : CommandLine s.ctrl)
    (ho : offers s.ctrl.state = true) (hd : s.spi.doneSend = true)
    (hnext : s.ctrl.state = .sendData → s.ctrl.nextState = .done) :
    ((nextCtrl s i).state = .delay ∧ s.ctrl.state = .init ∨ (nextCtrl s i).state = .waitSpi) ∧
      (nextCtrl s i).nextState = (position s).follow ∧ (nextCtrl s i).spiLoadData = false ∧
      (nextCtrl s i).oledDcN = decide (s.ctrl.state = .sendData) := by
  have hctrl := nextCtrl_acknowledged (i := i) hr ho hd hnext
  refine ⟨?_,by rw [hctrl],by rw [hctrl],by rw [hctrl]; exact commandLine_eq hc ho⟩
  rw [hctrl]
  by_cases hinit : s.ctrl.state = .init
  · exact .inl ⟨if_pos hinit,hinit⟩
  · exact .inr (if_neg hinit)

/-- DELAY or WAIT_SPI is entered while the engine still acknowledges. -/
theorem withdrawn_phase (htimed : Timed s)
    (hs : (nextCtrl s i).state = .delay ∧ s.ctrl.state = .init ∨ (nextCtrl s i).state = .waitSpi)
    (hn : (nextCtrl s i).nextState ≠ .delay ∧ (nextCtrl s i).nextState ≠ .waitSpi)
    (hl : (nextCtrl s i).spiLoadData = false) (hset : Settled (step s i).spi) :
    Phase (step s i) := by
  rcases hs with ⟨hs,hinit⟩ | hs
  · have hoff := htimed.away (by rw [hinit]; decide)
    have hdelay : (step s i).delay = ⟨0,false⟩ := by
      rw [step_delay,hoff,DelayGen.step_stopped]
    refine .delaying hs hl hn ?_
    rcases hset with hack | hf
    · right
      refine ⟨hack,by rw [hdelay],?_⟩
      have hle := hack.busyClocks_le
      rw [hdelay]
      simpa using hle
    · exact .inl hf
  · exact .waiting hs hl hn hset

theorem withdrawn_rank (ho : offers s.ctrl.state = true) (hack : Acknowledging s.spi)
    (hs : (nextCtrl s i).state = .delay ∨ (nextCtrl s i).state = .waitSpi)
    (hset : Settled (step s i).spi) (valid : Bool) :
    rank (step s i) valid < rank s i.sendDataValid := by
  have hle := delayClocks_le (step s i)
  have hbusy : busyClocks (step s i).spi ≤ 10 := by
    rcases hset with hack' | hf'
    · exact hack'.busyClocks_le
    · rw [hf'.busyClocks]
      omega
  have hdetour : detour (nextCtrl s i).nextState ≤ 2*horizon := by
    unfold detour
    split <;> omega
  have hh : horizon = 2^18+100 := rfl
  rw [rank_of_offers _ ho,if_neg (by rw [hack.state]; decide)]
  rcases hs with hs | hs
  · simp only [rank,step_ctrl,hs]
    omega
  · simp only [rank,step_ctrl,hs]
    omega

theorem acknowledged_outcome (hr : i.reset = false) (hc : CommandLine s.ctrl) (htimed : Timed s)
    (ho : offers s.ctrl.state = true) (hack : Acknowledging s.spi)
    (hnext : s.ctrl.state = .sendData → s.ctrl.nextState = .done) : Outcome s i := by
  obtain ⟨hs',hn',hl',hdc'⟩ := nextCtrl_withdrawn (i := i) hr hc ho hack.doneSend hnext
  have hwaits : (nextCtrl s i).state = .delay ∨ (nextCtrl s i).state = .waitSpi :=
    hs'.imp_left And.left
  have hpoint : (position s).point = s.ctrl.state := point_of_offers ho
  have hresume := resumable_follow (p := position s) (hpoint ▸ ho)
  obtain ⟨hlatch,hset⟩ := settled_step hr (.inl hack) hl'
  refine ⟨withdrawn_phase htimed hs' (by rw [hn']; exact hresume) hl' hset,?_,?_,
    fun _ valid _ => withdrawn_rank ho hack hwaits hset valid⟩
  · intro hneeds
    rw [step_ctrl,point_of_waits hwaits,hn'] at hneeds
    rw [step_ctrl,hdc',decide_eq_false_iff_not,← hpoint]
    exact command_follow hneeds
  · have hpos : position (step s i) = (position s).advance := by
      have ho' : offers (nextCtrl s i).state = false := by
        rcases hwaits with h | h <;> rw [h] <;> rfl
      simp only [position,step_ctrl,point_of_waits hwaits,hn',ho',Bool.false_and]
      rw [nextCtrl_acknowledged hr ho hack.doneSend hnext]
      rfl
    rw [hpos,hlatch]
    exact .advance (hpoint ▸ ho) (by simp [position,ho,hack.state])

theorem serving_outcome (hr : i.reset = false) (hc : CommandLine s.ctrl) (htimed : Timed s)
    (ho : offers s.ctrl.state = true) (hb : Busy s.spi)
    (hnext : s.ctrl.state = .sendData → s.ctrl.nextState = .done) : Outcome s i := by
  cases hd : s.spi.doneSend with
  | true => exact acknowledged_outcome hr hc htimed ho (hb.acknowledging hd) hnext
  | false =>
      have hctrl := nextCtrl_offered hr ho hd
      have hs' : (nextCtrl s i).state = s.ctrl.state := by rw [hctrl]
      have ho' : offers (nextCtrl s i).state = true := hs' ▸ ho
      have hl' : (nextCtrl s i).spiLoadData = true := by rw [hctrl]
      have hresetN := Input.resetN_of_not_reset hr
      have hb' := hb.step (i := spiInput s i) hresetN hl'
      obtain ⟨hc',hdc'⟩ := command_offered hr hc ho hd
      have hnone : latched s i = none := by
        rw [latched,OledSpi.latched_of_not_idle _ hb.state]
        rfl
      have htaken : (position s).taken = true := by
        simpa [position,ho] using hb.state
      refine ⟨.serving ho' hb' ?_ hdc',hc',?_,?_⟩
      · intro hs
        rw [step_ctrl] at hs ⊢
        rw [hs'] at hs
        rw [hctrl]
        exact if_pos hs
      · rw [hnone]
        refine held_move hr ho hd ?_
        rw [htaken]
        simpa using hb'.state
      · intro _ valid _
        have hbusy := OledSpi.busyClocks_step (i := spiInput s i) hresetN hb
          (by rw [spiInput_loadData,hl',hd]; rfl)
        rw [rank_of_offers _ ho,rank_of_offers _ ho',if_neg hb.state,step_spi,if_neg hb'.state]
        omega

theorem done_accepted {c : Controller} (hd : c.sendDone = false) :
    c.done true = { c with
      state := if c.columnAddr = 128 then .pageAddr else .sendData
      columnAddr := if c.columnAddr = 128 then 0 else c.columnAddr
      byteCounter := 8 } := by
  by_cases hcol : c.columnAddr = 128#8 <;> simp [Controller.done,hd,hcol]

theorem done_rested {c : Controller} {valid : Bool} (h : valid = true → c.sendDone = true) :
    c.done valid = { c with sendDone := false } := by
  cases hv : valid with
  | false => simp [Controller.done]
  | true => simp [Controller.done,h hv]

/-- DONE takes the character on offer. -/
theorem accepted_outcome (hr : i.reset = false) (hs : s.ctrl.state = .done)
    (hl : s.ctrl.spiLoadData = false) (hf : Free s.spi) (hv : i.sendDataValid = true)
    (hd : s.ctrl.sendDone = false) : Outcome s i := by
  have hctrl := nextCtrl_done (i := i) hr hs
  rw [hv,done_accepted hd] at hctrl
  have hl' : (nextCtrl s i).spiLoadData = false := by rw [hctrl]; exact hl
  obtain ⟨hlatch,hf'⟩ := free_step hr hf hl'
  have hs' : (nextCtrl s i).state = if s.ctrl.columnAddr = 128 then .pageAddr else .sendData := by
    rw [hctrl]
  have ho' : offers (nextCtrl s i).state = true := by
    rw [hs']
    split <;> rfl
  refine ⟨.offering ho' hf',?_,?_,?_⟩
  · intro hneeds
    rw [step_ctrl,point_of_offers ho',hs'] at hneeds
    split at hneeds <;> contradiction
  · have hidle : (OledSpi.step s.spi (spiInput s i)).state = .idle := hf'.state
    have hpos : position (step s i) = (position s).accept := by
      simp only [position,step_ctrl,step_spi,point_of_offers ho',hidle]
      rw [hctrl]
      by_cases hcol : s.ctrl.columnAddr = 128#8 <;>
        simp [Position.accept,hcol,hs,offers]
    rw [hpos,hlatch]
    exact .accept (by simp [position,point,hs]) (by simp [position,hs,offers]) hv hd
  · intro _ valid _
    have hfall := (step s i).spi.div.toFall_le
    rw [rank_of_offers _ ho',if_pos hf'.state]
    simp only [rank,hs]
    omega

/-- DONE without a character on offer, or right after one. -/
theorem rested_outcome (hr : i.reset = false) (hs : s.ctrl.state = .done)
    (hl : s.ctrl.spiLoadData = false) (hf : Free s.spi)
    (hd : i.sendDataValid = true → s.ctrl.sendDone = true) : Outcome s i := by
  have hctrl := nextCtrl_done (i := i) hr hs
  rw [done_rested hd] at hctrl
  have hl' : (nextCtrl s i).spiLoadData = false := by rw [hctrl]; exact hl
  have hs' : (nextCtrl s i).state = .done := by rw [hctrl]; exact hs
  have hpoint : point (nextCtrl s i) = .done := by simp [point,hs']
  obtain ⟨hlatch,hf'⟩ := free_step hr hf hl'
  refine ⟨.ready hs' hl' hf',?_,?_,?_⟩
  · intro hneeds
    rw [step_ctrl,hpoint] at hneeds
    contradiction
  · have hpos : position (step s i) = { position s with sendDone := false } := by
      simp only [position,step_ctrl,hpoint,hs',offers,Bool.false_and]
      rw [hctrl]
      simp [point,hs]
    rw [hpos,hlatch]
    exact .rest (by simp [position,point,hs]) hd
  · intro _ valid hfed
    obtain ⟨hlow,hoffered⟩ := hfed hs
    have hdone' : (nextCtrl s i).sendDone = false := by rw [hctrl]
    have hvalid : i.sendDataValid = false := by
      cases hv : i.sendDataValid with
      | false => rfl
      | true => rw [hd hv] at hlow; simpa using hlow hv
    simp only [rank,step_ctrl,hs,hs',hdone',hvalid]
    cases hsd : s.ctrl.sendDone with
    | true =>
        simp only [Bool.false_eq_true,if_false,if_true]
        split <;> omega
    | false => simp [hoffered hvalid hsd]

theorem ready_outcome (hr : i.reset = false) (hs : s.ctrl.state = .done)
    (hl : s.ctrl.spiLoadData = false) (hf : Free s.spi) : Outcome s i := by
  by_cases hd : i.sendDataValid = true → s.ctrl.sendDone = true
  · exact rested_outcome hr hs hl hf hd
  · rw [Classical.not_imp,Bool.not_eq_true] at hd
    exact accepted_outcome hr hs hl hf hd.1 hd.2

structure Stage (s : State) : Prop where
  phase : Phase s
  command : CommandLine s.ctrl
  timed : Timed s

theorem stage_of_idel (hs : s.ctrl.state = .idel) (hl : s.ctrl.spiLoadData = false)
    (hf : Free s.spi) (hstart : s.ctrl.startDelay = false) (hd : s.delay.delayDone = false) :
    Stage s := by
  refine ⟨.passing (by rw [hs]; rfl) hl hf,?_,?_⟩
  · intro h
    simp [point,hs,needsCommandLine] at h
  · refine ⟨fun _ => hstart,fun hs' => ?_,fun _ => hd,fun hd' => ?_⟩
    · simp [hs] at hs'
    · simp [hd] at hd'

theorem Stage.outcome (h : Stage s) (hr : i.reset = false) : Outcome s i := by
  obtain ⟨hphase,hc,ht⟩ := h
  cases hphase with
  | passing hp hl hf => exact passing_outcome hr hc hp hl hf
  | delaying hs hl hn hf => exact delaying_outcome hr hc hs hl hn hf
  | waiting hs hl hn hset => exact waiting_outcome hr hc hs hl hn hset
  | offering ho hf => exact offering_outcome hr hc ho hf
  | serving ho hb hnext => exact serving_outcome hr hc ht ho hb hnext
  | ready hs hl hf => exact ready_outcome hr hs hl hf

theorem Phase.resumable (h : Phase s) (hs : s.ctrl.state = .delay) :
    s.ctrl.nextState ≠ .delay := by
  cases h with
  | passing hp => simp [hs,passes] at hp
  | delaying _ _ hn => exact hn.1
  | waiting hw => simp [hs] at hw
  | offering ho => simp [hs,offers] at ho
  | serving ho => simp [hs,offers] at ho
  | ready hd => simp [hs] at hd

theorem Stage.step (h : Stage s) (hr : i.reset = false) : Stage (step s i) :=
  ⟨(h.outcome hr).phase,(h.outcome hr).command,h.timed.step hr h.phase.resumable⟩

end FpgaTest.OledStages
