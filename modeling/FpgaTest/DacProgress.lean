import FpgaTest.Cn0531

/-!
# Progress of the DAC controller

From the release of a reset on, with no further reset, the controller passes
through its states: an offered word is latched at the next rising edge of the
divided clock, a latched word is acknowledged, and the settling delay ends. Each
stage is a decreasing measure on the state; none of them runs the ten million
clocks of the delay.
-/
namespace FpgaTest.DacProgress
open ClockedMachine ClockDivider WrappingCounter Cn0531

/-- Nothing is latched at the edges from `m` up to `n`. -/
def Silent (s : State) (input : ℕ → Input) (m n : ℕ) : Prop :=
  ∀ k, m ≤ k → k < n → latched (run step s input k) (input k) = none

theorem Silent.trans {s : State} {input : ℕ → Input} {a b c : ℕ} (h : Silent s input a b)
    (h' : Silent s input b c) : Silent s input a c := by
  intro k hk hkc
  rcases Nat.lt_or_ge k b with hb | hb
  · exact h k hk hb
  · exact h' k hb hkc

variable {s : State} {input : ℕ → Input} {m : ℕ}

theorem Silent.emitted {n : ℕ} {w : BitVec 24} (h : Silent s input m n) (hmn : m ≤ n)
    (hw : latched (run step s input n) (input n) = some w) :
    emitted step s input latched m (n+1-m) = [w] := by
  have hlen : n+1-m = (n-m)+1 := by omega
  rw [hlen,ClockedMachine.emitted,Nat.add_sub_cancel' hmn,hw,
    emitted_eq_nil (fun k hk hkn => h k hk (by omega))]
  rfl

/-- A RESET_N pulse of 100 clocks contains a rising edge of the divided clock,
and leaves whatever the engine's reset branch establishes. -/
theorem of_reset_pulse {P : DacSpi.State → Prop}
    (hreset : ∀ s i, s.div.rises = true → i.resetN = false → P (DacSpi.step s i))
    (hkeep : ∀ s, P s → P { s with div := s.div.step })
    (h : ∀ k, m ≤ k → k < m+100 → (input k).resetN = false) :
    P (run step s input (m+100)).spi := by
  have hr : ∀ k, m ≤ k → k < m+100 →
      (spiInput (run step s input k) (input k)).resetN = false := h
  refine run_countdown step s input (fun s => P s.spi) (fun s => s.spi.div.toRise)
    (Nat.le_add_right m 100) (fun s => s.spi.div.toRise_pos)
    (by simpa using Divider.toRise_le _) ?_ ?_
  · intro k hmk hk hp
    rw [run_succ,step_spi]
    cases ht : (run step s input k).spi.div.rises with
    | true => exact hreset _ _ ht (hr k hmk hk)
    | false =>
        rw [DacSpi.step_of_not_rises _ ht]
        exact hkeep _ hp
  · intro k hmk hk
    cases ht : (run step s input k).spi.div.rises with
    | true => exact .inl (hreset _ _ ht (hr k hmk hk))
    | false => exact .inr (Divider.toRise_step_of_not_rises ht)

theorem free_of_reset_pulse (h : ∀ k, m ≤ k → k < m+100 → (input k).resetN = false) :
    DacSpi.Free (run step s input (m+100)).spi :=
  of_reset_pulse (fun _ _ => DacSpi.free_of_reset) (fun _ hf => ⟨hf.state,hf.spiDone⟩) h

theorem latched_of_rises {i : Input} {st next : Fsm} {w : BitVec 24} (hr : i.reset = false)
    (hs : s.ctrl.state = st) (hq : st.request i.data = some (w,next)) (hf : DacSpi.Free s.spi)
    (ht : s.spi.div.rises = true) : latched s i = some w := by
  obtain ⟨-,hw,hl⟩ := nextCtrl_offered hr (hs ▸ hq) hf.spiDone
  simp [latched,DacSpi.latched,ht,hf.state,Input.resetN_of_not_reset hr,hl,hw]

theorem reaches_taken (st next : Fsm) (w : BitVec 24)
    (hr : ∀ k, m ≤ k → (input k).reset = false)
    (hq : ∀ k, m ≤ k → st.request (input k).data = some (w,next))
    (hs : (run step s input m).ctrl.state = st) (hf : DacSpi.Free (run step s input m).spi) :
    ∃ n, m ≤ n ∧ Silent s input m n ∧ latched (run step s input n) (input n) = some w ∧
      (∀ k, m ≤ k → k ≤ n → (run step s input k).ctrl.state = st ∧
        DacSpi.Free (run step s input k).spi) ∧
      (run step s input (n+1)).ctrl.state = st ∧ DacSpi.Busy (run step s input (n+1)).spi := by
  obtain ⟨n,hmn,⟨hs',hb⟩,hbetween⟩ := run_reaches step s input
    (fun s => s.ctrl.state = st ∧ DacSpi.Free s.spi)
    (fun s => s.ctrl.state = st ∧ DacSpi.Busy s.spi) (fun s => s.spi.div.toRise) ⟨hs,hf⟩ (by
      intro k hk hp
      obtain ⟨hs,hf⟩ := hp
      obtain ⟨hs',hstep⟩ := offer_step (hr k hk) (hs ▸ hq k hk) hf
      rcases hstep with ⟨hw,hf'⟩ | ⟨-,hb'⟩
      · refine .inr ⟨⟨hs'.trans hs,hf'⟩,?_⟩
        cases ht : (run step s input k).spi.div.rises with
        | true => simp [latched_of_rises (hr k hk) hs (hq k hk) hf ht] at hw
        | false =>
            have := Divider.toRise_step_of_not_rises ht
            simp only [step_spi,DacSpi.step_div]
            omega
      · exact .inl ⟨hs'.trans hs,hb'⟩)
  obtain ⟨n,rfl⟩ : ∃ n', n = n'+1 := ⟨n-1,by omega⟩
  have hlatch : ∀ k, m ≤ k → k < n+1 → latched (run step s input k) (input k) = none ∧
      DacSpi.Free (run step s input (k+1)).spi ∨ latched (run step s input k) (input k) = some w ∧
      DacSpi.Busy (run step s input (k+1)).spi := by
    intro k hk hkn
    obtain ⟨hs,hf⟩ := hbetween k hk hkn
    exact (offer_step (hr k hk) (hs ▸ hq k hk) hf).2
  refine ⟨n,by omega,?_,?_,fun k hk hkn => hbetween k hk (by omega),hs',hb⟩
  · intro k hk hkn
    rcases hlatch k hk (by omega) with ⟨hw,-⟩ | ⟨-,hb'⟩
    · exact hw
    · exact absurd (hbetween (k+1) (by omega) (by omega)).2.state hb'.state
  · rcases hlatch n (by omega) (by omega) with ⟨-,hf'⟩ | ⟨hw,-⟩
    · exact absurd hf'.state hb.state
    · exact hw

theorem reaches_acknowledged (st next : Fsm) (hr : ∀ k, m ≤ k → (input k).reset = false)
    (hq : ∀ k, m ≤ k → ∃ w, st.request (input k).data = some (w,next))
    (hs : (run step s input m).ctrl.state = st) (hb : DacSpi.Busy (run step s input m).spi) :
    ∃ n, m < n ∧ Silent s input m n ∧
      (∀ k, m ≤ k → k < n → (run step s input k).ctrl.state = st) ∧
      (run step s input n).ctrl.state = next ∧ (run step s input n).ctrl.spiLoadData = false ∧
      Settled (run step s input n).spi := by
  obtain ⟨n,hmn,hgoal,hbetween⟩ := run_reaches step s input
    (fun s => s.ctrl.state = st ∧ DacSpi.Busy s.spi)
    (fun s => s.ctrl.state = next ∧ s.ctrl.spiLoadData = false ∧ Settled s.spi)
    (fun s => DacSpi.busyClocks s.spi) ⟨hs,hb⟩ (by
      intro k hk hp
      obtain ⟨hs,hb⟩ := hp
      obtain ⟨w,hq⟩ := hq k hk
      obtain ⟨-,⟨hs',hb'⟩ | hdone⟩ := busy_step (hr k hk) (hs ▸ hq) hb
      · have hst : st ≠ .delay ∧ st ≠ .idle := by
          constructor <;> rintro rfl <;> simp [Fsm.request] at hq
        have := (Paired.serving (hs ▸ hst) hb).busyClocks_step (hr k hk) hb.state
        exact .inr ⟨⟨hs'.trans hs,hb'⟩,by omega⟩
      · exact .inl hdone)
  refine ⟨n,hmn,?_,fun k hk hkn => (hbetween k hk hkn).1,hgoal⟩
  intro k hk hkn
  exact DacSpi.latched_of_not_idle _ (hbetween k hk hkn).2.state

/-- Waiting with the request line low, while the engine acknowledges. -/
structure Parting (st : Fsm) (s : State) : Prop where
  state : s.ctrl.state = st
  load : s.ctrl.spiLoadData = false
  spi : DacSpi.Acknowledging s.spi

/-- Waiting with the request line low and the engine free. -/
structure Resting (st : Fsm) (s : State) : Prop where
  state : s.ctrl.state = st
  load : s.ctrl.spiLoadData = false
  spi : DacSpi.Free s.spi

theorem parting_or_resting {st : Fsm} (hs : s.ctrl.state = st)
    (hl : s.ctrl.spiLoadData = false) (h : Settled s.spi) : Parting st s ∨ Resting st s := by
  rcases h with h | h
  · exact .inl ⟨hs,hl,h⟩
  · exact .inr ⟨hs,hl,h⟩

theorem Parting.step {st : Fsm} {i : Input} (h : Parting st s) (hst : st = .delay ∨ st = .idle)
    (hr : i.reset = false) (hs' : (step s i).ctrl.state = st) :
    Resting st (step s i) ∨ (Parting st (step s i) ∧
      DacSpi.busyClocks (step s i).spi < DacSpi.busyClocks s.spi) := by
  have hst' : s.ctrl.state = .delay ∨ s.ctrl.state = .idle := h.state ▸ hst
  have hl' := nextCtrl_waiting hr hst' h.load
  have hset := (settled_step hr (.inl h.spi) hl').2
  have hclocks := (Paired.waiting hst' h.load (.inl h.spi)).busyClocks_step hr h.spi.busy.state
  rcases parting_or_resting hs' hl' hset with hp | hp
  · exact .inr ⟨hp,by omega⟩
  · exact .inl hp

theorem Parting.silent {st : Fsm} {i : Input} (h : Parting st s) : latched s i = none :=
  DacSpi.latched_of_not_idle _ h.spi.busy.state

theorem Resting.step {st : Fsm} {i : Input} (h : Resting st s) (hst : st = .delay ∨ st = .idle)
    (hr : i.reset = false) : latched s i = none ∧
      (step s i).ctrl.spiLoadData = false ∧ DacSpi.Free (step s i).spi := by
  have hst' : s.ctrl.state = .delay ∨ s.ctrl.state = .idle := h.state ▸ hst
  have hl' := nextCtrl_waiting hr hst' h.load
  refine ⟨DacSpi.latched_of_not_load hl',hl',?_⟩
  rcases h.spi.step (i := spiInput s i) (Input.resetN_of_not_reset hr) with ⟨-,hf'⟩ | ⟨hl,-⟩
  · exact hf'
  · rw [spiInput_spiLoad,hl'] at hl
    contradiction

theorem Resting.step_idle {i : Input} (h : Resting .idle s) (hr : i.reset = false)
    (hl : i.loadData = false) : Resting .idle (Cn0531.step s i) := by
  obtain ⟨-,hl',hf'⟩ := h.step (.inr rfl) hr
  refine ⟨?_,hl',hf'⟩
  rw [step_ctrl,nextCtrl_idle hr h.state,hl]
  rfl

theorem reaches_rest (hr : ∀ k, m ≤ k → (input k).reset = false)
    (hload : ∀ k, m ≤ k → (input k).loadData = false) (h : Parting .idle (run step s input m)) :
    ∃ n, m < n ∧ Silent s input m n ∧ Resting .idle (run step s input n) := by
  obtain ⟨n,hmn,hgoal,hbetween⟩ := run_reaches step s input
    (Parting .idle) (Resting .idle) (fun s => DacSpi.busyClocks s.spi) h (by
      intro k hk hp
      apply hp.step (.inr rfl) (hr k hk)
      rw [step_ctrl,nextCtrl_idle (hr k hk) hp.state,hload k hk]
      rfl)
  exact ⟨n,hmn,fun k hk hkn => (hbetween k hk hkn).silent,hgoal⟩

/-- The delay generator has not been started since it last stopped. -/
structure Unstarted (s : State) : Prop where
  startDelay : s.ctrl.startDelay = false
  delayDone : s.delay.delayDone = false

theorem Unstarted.run {n : ℕ} (hr : ∀ k, m ≤ k → (input k).reset = false) {st : Fsm}
    (hq : ∀ k, m ≤ k → ∃ w next, st.request (input k).data = some (w,next)) (hmn : m ≤ n)
    (hst : ∀ k, m ≤ k → k < n → (run step s input k).ctrl.state = st)
    (h : Unstarted (run step s input m)) : Unstarted (run step s input n) := by
  apply run_invariant _ _ _ (fun _ => Unstarted) hmn h
  intro k hk hkn hu
  obtain ⟨w,next,hq⟩ := hq k hk
  refine ⟨(nextCtrl_startDelay (hr k hk) (hst k hk hkn ▸ hq)).trans hu.startDelay,?_⟩
  simp [DelayGen.step,hu.startDelay]

/-- The acknowledgement is over long before the delay is. -/
theorem reaches_delay_rest (hr : ∀ k, m ≤ k → (input k).reset = false)
    (h : Parting .delay (run step s input m)) (hu : Unstarted (run step s input m)) :
    ∃ n, m < n ∧ Silent s input m n ∧
      (∀ k, m ≤ k → k < n → (run step s input k).ctrl.state = .delay) ∧
      Resting .delay (run step s input n) := by
  obtain ⟨n,hmn,hgoal,hbetween⟩ := run_reaches step s input
    (fun s => Parting .delay s ∧ s.delay.delayDone = false ∧ (s.ctrl.startDelay = false ∨
      DacSpi.busyClocks s.spi ≤ remaining delayLimit s.delay.counter))
    (Resting .delay) (fun s => DacSpi.busyClocks s.spi)
    ⟨h,hu.delayDone,.inl hu.startDelay⟩ (by
      intro k hk hp
      obtain ⟨hpart,hd,hcount⟩ := hp
      have hs' : (step (run step s input k) (input k)).ctrl.state = .delay := by
        rw [step_ctrl,nextCtrl_delay (hr k hk) hpart.state,hd]
        rfl
      rcases hpart.step (.inl rfl) (hr k hk) hs' with hrest | ⟨hpart',hlt⟩
      · exact .inl hrest
      · refine .inr ⟨⟨hpart',?_⟩,hlt⟩
        rw [step_delay]
        cases hstart : (run step s input k).ctrl.startDelay with
        | false =>
            rw [DelayGen.step_stopped]
            exact ⟨rfl,.inr (hpart'.spi.busyClocks_le.trans (by decide))⟩
        | true =>
            have hcount := hcount.resolve_left (by simp [hstart])
            have hne : (run step s input k).delay.counter ≠ delayLimit := by
              intro he
              rw [remaining_eq_zero_iff.mpr he] at hcount
              omega
            have hrem := remaining_succ hne
            rw [DelayGen.step_counting hne]
            exact ⟨rfl,.inr (by simp only; omega)⟩)
  exact ⟨n,hmn,fun k hk hkn => (hbetween k hk hkn).1.silent,
    fun k hk hkn => (hbetween k hk hkn).1.state,hgoal⟩

/-- Clocks until `delayDone`, or a bound on them before the counter is started. -/
def delayClocks (s : State) : ℕ :=
  if s.delay.delayDone then 0
  else if s.ctrl.startDelay then remaining delayLimit s.delay.counter + 1
  else 2^25+1

theorem delayClocks_step {i : Input} (hr : i.reset = false) (hs : s.ctrl.state = .delay)
    (hd : s.delay.delayDone = false) : delayClocks (step s i) < delayClocks s := by
  have hstart : (step s i).ctrl.startDelay = true := nextCtrl_startDelay_delay hr hs hd
  have hlt := DelayGen.clocksLeft_step delayLimit hd s.ctrl.startDelay
  rw [← hstart] at hlt
  exact hlt

theorem reaches_init (hr : ∀ k, m ≤ k → (input k).reset = false)
    (h : Resting .delay (run step s input m)) :
    ∃ n, m < n ∧ Silent s input m n ∧
      (∀ k, m ≤ k → k < n → (run step s input k).ctrl.state = .delay) ∧
      Resting .init (run step s input n) := by
  obtain ⟨n,hmn,hgoal,hbetween⟩ := run_reaches step s input
    (Resting .delay) (Resting .init) delayClocks h (by
      intro k hk hp
      have hs' := nextCtrl_delay (hr k hk) hp.state
      obtain ⟨-,hl',hf'⟩ := hp.step (.inl rfl) (hr k hk)
      cases hd : (run step s input k).delay.delayDone with
      | true =>
          rw [hd,if_pos rfl] at hs'
          exact .inl ⟨hs',hl',hf'⟩
      | false =>
          rw [hd,if_neg Bool.false_ne_true] at hs'
          exact .inr ⟨⟨hs',hl',hf'⟩,delayClocks_step (hr k hk) hp.state hd⟩)
  exact ⟨n,hmn,fun k hk hkn => ((hbetween k hk hkn).step (.inl rfl) (hr k hk)).1,
    fun k hk hkn => (hbetween k hk hkn).state,hgoal⟩

/-- An engine that is busy in CONFIG brings the controller to INIT, whatever word
it was busy with. -/
theorem config_reaches_init (hr : ∀ k, m ≤ k → (input k).reset = false)
    (hs : (run step s input m).ctrl.state = .config)
    (hb : DacSpi.Busy (run step s input m).spi) (hu : Unstarted (run step s input m)) :
    ∃ n, m < n ∧ Silent s input m n ∧
      (∀ k, m ≤ k → k < n → (run step s input k).ctrl.state ≠ .init) ∧
      Resting .init (run step s input n) := by
  obtain ⟨a,hma,hsilent,hst,hs',hl',hset⟩ := reaches_acknowledged .config .delay hr
    (fun k _ => ⟨configWord,rfl⟩) hs hb
  have hu' := hu.run hr (fun k _ => ⟨configWord,.delay,rfl⟩) hma.le hst
  have hra : ∀ k, a ≤ k → (input k).reset = false := fun k hk => hr k (hma.le.trans hk)
  obtain ⟨b,hab,hsilent',hdelay,hrest⟩ : ∃ b, a ≤ b ∧ Silent s input a b ∧
      (∀ k, a ≤ k → k < b → (run step s input k).ctrl.state = .delay) ∧
      Resting .delay (run step s input b) := by
    rcases parting_or_resting hs' hl' hset with hp | hp
    · obtain ⟨b,hab,hb⟩ := reaches_delay_rest hra hp hu'
      exact ⟨b,hab.le,hb⟩
    · exact ⟨a,le_rfl,fun k hk hka => absurd hk (by omega),fun k hk hka => absurd hk (by omega),hp⟩
  obtain ⟨n,hbn,hsilent'',hdelay',hinit⟩ := reaches_init (fun k hk => hra k (hab.trans hk)) hrest
  refine ⟨n,by omega,hsilent.trans (hsilent'.trans hsilent''),?_,hinit⟩
  intro k hk hkn
  rcases Nat.lt_or_ge k a with hka | hka
  · rw [hst k hk hka]
    decide
  · rcases Nat.lt_or_ge k b with hkb | hkb
    · rw [hdelay k hka hkb]
      decide
    · rw [hdelay' k hkb hkn]
      decide

theorem config_reaches_idle (hr : ∀ k, m ≤ k → (input k).reset = false)
    (hload : ∀ k, m ≤ k → (input k).loadData = false)
    (hs : (run step s input m).ctrl.state = .config)
    (hf : DacSpi.Free (run step s input m).spi) (hu : Unstarted (run step s input m)) :
    ∃ n, m ≤ n ∧ Resting .idle (run step s input n) := by
  obtain ⟨a,hma,-,-,hst,hs',hb⟩ := reaches_taken .config .delay configWord hr
    (fun k _ => rfl) hs hf
  have hu' := hu.run (n := a+1) hr (fun k _ => ⟨configWord,.delay,rfl⟩) (by omega)
    (fun k hk hka => (hst k hk (by omega)).1)
  obtain ⟨b,hab,-,-,hinit⟩ := config_reaches_init (fun k hk => hr k (by omega)) hs' hb hu'
  obtain ⟨c,hbc,-,-,-,hs'',hb''⟩ := reaches_taken .init .idle initWord
    (fun k hk => hr k (by omega)) (fun k _ => rfl) hinit.state hinit.spi
  obtain ⟨d,hcd,-,-,hidle,hl,hset⟩ := reaches_acknowledged .init .idle
    (fun k hk => hr k (by omega)) (fun k _ => ⟨initWord,rfl⟩) hs'' hb''
  rcases parting_or_resting hidle hl hset with hp | hp
  · obtain ⟨n,hn,-,hrest⟩ := reaches_rest (fun k hk => hr k (by omega))
      (fun k hk => hload k (by omega)) hp
    exact ⟨n,by omega,hrest⟩
  · exact ⟨d,by omega,hp⟩

/-- RESET_N is low for the first 100 clocks; nothing else happens. -/
def cleanStart (n : ℕ) : Input := ⟨decide (100 ≤ n),false,false,0⟩

theorem cleanStart_reset {k : ℕ} (h : 100 ≤ k) : (cleanStart k).reset = false := by
  simpa [cleanStart,Input.reset] using h

theorem cleanStart_reaches_idle : ∃ n, 100 ≤ n ∧ Resting .idle (run step powerUp cleanStart n) :=
  config_reaches_idle (fun _ => cleanStart_reset) (fun _ _ => rfl) (by decide +kernel)
    ⟨by decide +kernel,by decide +kernel⟩ ⟨by decide +kernel,by decide +kernel⟩

end FpgaTest.DacProgress
