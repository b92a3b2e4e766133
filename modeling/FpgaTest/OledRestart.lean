import FpgaTest.OledPanel

/-!
# The display controller under resets at any time

A reset by the button restarts the controller and not its engine, and a short
pulse of RESET_N may miss the falling edge of the divided clock. The engine then
finishes the byte it has, while the controller waits in its first DELAY with the
request line low. That delay is far longer than a byte, so INIT finds the engine
free again and the program of the controller starts from its beginning.
-/
namespace FpgaTest.OledRestart
open ClockedMachine ClockDivider WrappingCounter OledControl OledProgram OledStages

/-- `done_send` only ever shows in DONE. -/
def Sound (s : OledSpi.State) : Prop := s.doneSend = true → s.state = .done

/-- Clocks until the engine is back in IDLE, when there is no request. -/
def drainClocks (s : OledSpi.State) : ℕ :=
  match s.state with
  | .idle => 0
  | .send => 10 * remaining 7 s.dataCount + s.div.toFall + 10
  | .done => s.div.toFall

section Engine
variable {t : OledSpi.State} {j : OledSpi.Input}

theorem Sound.step (h : Sound t) : Sound (OledSpi.step t j) := by
  cases ht : t.div.falls with
  | false =>
      rw [OledSpi.step_of_not_falls j ht]
      exact h
  | true =>
      cases hr : j.resetN with
      | false =>
          rw [OledSpi.step_reset ht hr]
          simp [Sound]
      | true =>
          have hlow : t.state ≠ .done → t.doneSend = false := by
            intro hs
            cases hd : t.doneSend with
            | false => rfl
            | true => exact absurd (h hd) hs
          cases hs : t.state with
          | idle =>
              have hd := hlow (by rw [hs]; decide)
              cases hl : j.loadData with
              | false => rw [OledSpi.step_rest ht hr hs hl]; simp [Sound,hd]
              | true => rw [OledSpi.step_latch ht hr hs hl]; simp [Sound,hd]
          | send =>
              have hd := hlow (by rw [hs]; decide)
              by_cases hc : t.dataCount = 7
              · rw [OledSpi.step_last ht hr hs hc]; simp [Sound]
              · rw [OledSpi.step_shift ht hr hs hc]; simp [Sound,hd]
          | done =>
              cases hl : j.loadData with
              | false => rw [OledSpi.step_release ht hr hs hl]; simp [Sound]
              | true => rw [OledSpi.step_acknowledge ht hr hs hl]; simp [Sound,hs]

theorem drainClocks_le (t : OledSpi.State) : drainClocks t ≤ 90 := by
  have hfall := t.div.toFall_le
  have hrem := remaining_lt 7 t.dataCount
  unfold drainClocks
  cases t.state <;> simp only <;> omega

/-- Without a request the engine comes one clock closer to IDLE at every edge. -/
theorem drainClocks_step (hr : j.resetN = true) (hl : j.loadData = false) (hs : t.state ≠ .idle) :
    drainClocks (OledSpi.step t j) + 1 = drainClocks t := by
  cases ht : t.div.falls with
  | false =>
      have hfall := Divider.toFall_step_of_not_falls ht
      rw [OledSpi.step_of_not_falls j ht]
      unfold drainClocks
      cases hst : t.state with
      | idle => exact absurd hst hs
      | send => simp only; omega
      | done => simp only; omega
  | true =>
      have h1 := (Divider.falls_iff t.div).mp ht
      have hfall := Divider.toFall_step_of_falls ht
      cases hst : t.state with
      | idle => exact absurd hst hs
      | send =>
          by_cases hc : t.dataCount = 7
          · have h0 := remaining_eq_zero_iff.mpr hc
            rw [OledSpi.step_last ht hr hst hc]
            simp only [drainClocks,hst]
            omega
          · have hrem := remaining_succ hc
            rw [OledSpi.step_shift ht hr hst hc]
            simp only [drainClocks,hst]
            omega
      | done =>
          rw [OledSpi.step_release ht hr hst hl]
          simp only [drainClocks,hst]
          omega

end Engine

/-- What a reset clears and the first DELAY leaves alone. -/
structure Cleared (s : State) : Prop where
  load : s.ctrl.spiLoadData = false
  sendDone : s.ctrl.sendDone = false
  page : s.ctrl.currPage = 0
  column : s.ctrl.columnAddr = 0
  spi : Sound s.spi

/-- From a reset up to the first DELAY, in which the engine has at most a byte to
finish. -/
inductive Restarting (s : State) : Prop
  | idel : s.ctrl.state = .idel → s.ctrl.startDelay = false → Cleared s → Restarting s
  | delay : s.ctrl.state = .delay → s.ctrl.nextState = .init → s.ctrl.oledDcN = false →
      s.delay.delayDone = false → (s.ctrl.startDelay = false → s.delay.counter = 0) →
      s.delay.counter.toNat + drainClocks s.spi ≤ 100 → Cleared s → Restarting s

/-- The registers in a run with resets at any time. -/
def Operating (s : State) : Prop := Stage s ∨ Restarting s

variable {s : State} {i : Input}

theorem sound_of_operating (h : Operating s) : Sound s.spi := by
  rcases h with h | h
  · exact OledPanel.doneSend_of_phase h.phase
  · cases h with
    | idel _ _ hc => exact hc.spi
    | delay _ _ _ _ _ _ hc => exact hc.spi

theorem restarting_of_reset (h : Sound s.spi) (hr : i.reset = true) : Restarting (step s i) := by
  have hctrl := step_ctrl s i
  rw [nextCtrl,Controller.step,if_pos hr] at hctrl
  refine .idel (by rw [hctrl]) (by rw [hctrl]) ⟨?_,?_,?_,?_,h.step⟩ <;> rw [hctrl]

theorem stage_of_restarting (h : Restarting s) (hs : s.ctrl.state = .delay)
    (hidle : s.spi.state = .idle) : Stage s := by
  cases h with
  | idel hs' => simp [hs] at hs'
  | delay _ hn hdc hd hstop _ hc =>
      have hlow : s.spi.doneSend = false := by
        cases hsend : s.spi.doneSend with
        | false => rfl
        | true => simpa [hidle] using hc.spi hsend
      refine ⟨.delaying hs hc.load (by rw [hn]; decide) (.inl ⟨hidle,hlow⟩),fun _ => hdc,?_⟩
      exact ⟨fun hne => absurd hs hne,fun _ => hstop,fun _ => hd,
        fun hd' => absurd (hd.symm.trans hd') (by decide)⟩

theorem latched_of_load_low (hl : (nextCtrl s i).spiLoadData = false) : latched s i = none := by
  rw [latched,OledSpi.latched_of_not_load (by rw [spiInput_loadData]; exact hl)]
  rfl

/-- IDEL goes on to DELAY with the generator stopped. -/
theorem idel_step (hr : i.reset = false) (hs : s.ctrl.state = .idel)
    (hstop : s.ctrl.startDelay = false) (hc : Cleared s) :
    Restarting (step s i) ∧ Move i (position s) (position (step s i)) (latched s i) := by
  have hp : passes s.ctrl.state = true := by rw [hs]; rfl
  obtain ⟨hs',hn',hl',hdc',hpos'⟩ := nextCtrl_passed (s := s) hr hp
  have hdelay : (step s i).delay = ⟨0,false⟩ := by
    rw [step_delay,hstop,DelayGen.step_stopped]
  have hle := drainClocks_le (step s i).spi
  have htaken : (position s).taken = false := by simp [position,hs,offers]
  constructor
  · refine .delay hs' (by rw [step_ctrl,hn',hs]; rfl) (hdc' (.inl hs)) (by rw [hdelay])
      (fun _ => by rw [hdelay]) ?_ ⟨hl'.trans hc.load,?_,?_,?_,hc.spi.step⟩
    · rw [hdelay]
      simpa using hle.trans (by decide)
    · exact (congrArg Position.sendDone hpos').trans hc.sendDone
    · exact (congrArg Position.currPage hpos').trans hc.page
    · exact (congrArg Position.columnAddr hpos').trans hc.column
  · have hpoint : (position s).point = s.ctrl.state := point_of_passes hp
    have hmove := Move.pass (i := i) (hpoint ▸ hp) htaken
    rw [hpos',latched_of_load_low (hl'.trans hc.load)]
    simp only [htaken,hpoint] at hmove
    exact hmove

/-- The first DELAY goes on while the engine finishes its byte. -/
theorem delay_step (hr : i.reset = false) (hs : s.ctrl.state = .delay)
    (hn : s.ctrl.nextState = .init) (hdc : s.ctrl.oledDcN = false)
    (hd : s.delay.delayDone = false)
    (hcount : s.delay.counter.toNat + drainClocks s.spi ≤ 100) (hc : Cleared s)
    (hbusy : s.spi.state ≠ .idle) :
    Restarting (step s i) ∧ Move i (position s) (position (step s i)) (latched s i) := by
  have hctrl : nextCtrl s i = { s.ctrl with startDelay := true } := by
    rw [nextCtrl_delay hr hs,hd]
    simp only [Bool.false_eq_true,if_false,Bool.not_false]
    rw [← hs]
  have hl' : (nextCtrl s i).spiLoadData = false := by rw [hctrl]; exact hc.load
  have hdrain := drainClocks_step (j := spiInput s i) (Input.resetN_of_not_reset hr) hl' hbusy
  have hlimit : (delayLimit : BitVec 18).toNat = 200000 := rfl
  have hne : s.delay.counter ≠ delayLimit := by
    intro he
    rw [he,hlimit] at hcount
    omega
  have hdelay : (step s i).delay.delayDone = false ∧
      (step s i).delay.counter.toNat ≤ s.delay.counter.toNat + 1 := by
    refine ⟨?_,DelayGen.counter_step_le delayLimit s.delay s.ctrl.startDelay⟩
    simp [DelayGen.step,hne]
  constructor
  · refine .delay ?_ ?_ ?_ hdelay.1 ?_ ?_ ⟨hl',?_,?_,?_,hc.spi.step⟩
    · rw [step_ctrl,hctrl]; exact hs
    · rw [step_ctrl,hctrl]; exact hn
    · rw [step_ctrl,hctrl]; exact hdc
    · intro hstop
      rw [step_ctrl,hctrl] at hstop
      contradiction
    · have := hdelay.2
      rw [step_spi]
      omega
    · rw [step_ctrl,hctrl]; exact hc.sendDone
    · rw [step_ctrl,hctrl]; exact hc.page
    · rw [step_ctrl,hctrl]; exact hc.column
  · have hpos : position (step s i) = position s := by
      simp only [position,step_ctrl,hctrl,hs,offers,Bool.false_and,point]
    rw [hpos,latched_of_load_low hl']
    exact .wait _

/-- Between resets every edge is a move of the program. -/
theorem Operating.step_move (h : Operating s) (hr : i.reset = false) :
    Operating (step s i) ∧ Move i (position s) (position (step s i)) (latched s i) := by
  have hstage : Stage s →
      Operating (step s i) ∧ Move i (position s) (position (step s i)) (latched s i) :=
    fun h => ⟨.inl (h.step hr),(h.outcome hr).move⟩
  rcases h with h | h
  · exact hstage h
  · cases h with
    | idel hs hstop hc =>
        obtain ⟨hnext,hmove⟩ := idel_step hr hs hstop hc
        exact ⟨.inr hnext,hmove⟩
    | delay hs hn hdc hd hstop hcount hc =>
        by_cases hidle : s.spi.state = .idle
        · exact hstage (stage_of_restarting (.delay hs hn hdc hd hstop hcount hc) hs hidle)
        · obtain ⟨hnext,hmove⟩ := delay_step hr hs hn hdc hd hcount hc hidle
          exact ⟨.inr hnext,hmove⟩

theorem stage_powerUp : Stage powerUp := stage_of_idel rfl rfl ⟨rfl,rfl⟩ rfl rfl

theorem operating_run (input : ℕ → Input) (n : ℕ) : Operating (run step powerUp input n) := by
  induction n with
  | zero => exact .inl stage_powerUp
  | succ n ih =>
      cases hr : (input n).reset with
      | true => exact .inr (restarting_of_reset (sound_of_operating ih) hr)
      | false => exact (ih.step_move hr).1

theorem position_of_reset (hr : i.reset = true) :
    (position (step s i)).point = .idel ∧ (position (step s i)).taken = false ∧
      (position (step s i)).sendDone = false ∧ (position (step s i)).columnAddr = 0 := by
  simp [position,nextCtrl,Controller.step,hr,point,offers]

theorem load_of_not_offers (hr : i.reset = false) (ho : offers s.ctrl.state = false) :
    (nextCtrl s i).spiLoadData = s.ctrl.spiLoadData := by
  cases hs : s.ctrl.state <;> rw [hs] at ho <;> first
    | contradiction
    | (simp only [nextCtrl,Controller.step,hr,hs,Controller.done,Bool.false_eq_true,if_false]
       try split_ifs <;> rfl)

theorem load_low_of_not_offers (h : Operating s) (ho : offers s.ctrl.state = false) :
    s.ctrl.spiLoadData = false := by
  rcases h with h | h
  · cases h.phase with
    | passing _ hl | delaying _ hl | waiting _ hl | ready _ hl => exact hl
    | offering ho' | serving ho' =>
        rw [ho] at ho'
        contradiction
  · cases h with
    | idel _ _ hc => exact hc.load
    | delay _ _ _ _ _ _ hc => exact hc.load

theorem offers_of_latched {x : Transfer} (h : Operating s) (hr : i.reset = false)
    (hx : latched s i = some x) : offers s.ctrl.state = true := by
  cases ho : offers s.ctrl.state with
  | true => rfl
  | false =>
      have hl := (load_of_not_offers (i := i) hr ho).trans (load_low_of_not_offers h ho)
      rw [latched_of_load_low hl] at hx
      contradiction

end FpgaTest.OledRestart
