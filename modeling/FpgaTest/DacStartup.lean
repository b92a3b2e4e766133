import FpgaTest.DacProgress

/-!
# The words sent to the DAC after a reset

The DAC needs its configuration word first, then the initial value, then data.
The controller starts over on every reset, but it believes the acknowledgement
of whatever the engine happens to be doing. The order is kept in every run in
which two handovers find the engine free: the release of a reset that came from
the button alone, and the end of the settling delay. A RESET_N pulse of 100
clocks contains a rising edge of the divided clock and frees the engine by
itself.
-/
namespace FpgaTest.DacStartup
open ClockedMachine ClockDivider Cn0531 DacProgress

/-- The start-up order: configuration, initial value, then only data words. -/
inductive InOrder : List (BitVec 24) → Prop
  | nothing : InOrder []
  | config : InOrder [configWord]
  | data (ds : List (BitVec 20)) : InOrder (configWord::initWord::ds.map dataWord)

theorem InOrder.head_eq {w : BitVec 24} {l : List (BitVec 24)} (h : InOrder (w::l)) :
    w = configWord := by
  cases h <;> rfl

/-- Every RESET_N pulse that ends has lasted at least `len` clocks. -/
def ResetPulses (len : ℕ) (input : ℕ → Input) : Prop :=
  ∀ n, (input n).resetN = false → (input (n+1)).resetN = true →
    len ≤ n+1 ∧ ∀ k ≤ n, n < k+len → (input k).resetN = false

/-- Edge `r` is the last reset edge before edge `n`. -/
def LastReset (input : ℕ → Input) (r n : ℕ) : Prop :=
  r < n ∧ (input r).reset = true ∧ ∀ k, r < k → k < n → (input k).reset = false

/-- The words latched after edge `r` and before edge `n`. -/
def wordsSince (s : State) (input : ℕ → Input) (r n : ℕ) : List (BitVec 24) :=
  emitted step s input latched (r+1) (n-(r+1))

/-- What has been sent since the reset, by the state of the controller and of
the engine. -/
inductive Sent (s : State) : List (BitVec 24) → Prop
  | configOffered : s.ctrl.state = .config → DacSpi.Free s.spi → Sent s []
  | configTaken : s.ctrl.state = .config → DacSpi.Busy s.spi → Sent s [configWord]
  | settling : s.ctrl.state = .delay → s.ctrl.spiLoadData = false → Settled s.spi →
      Sent s [configWord]
  | initEntered : s.ctrl.state = .init → s.ctrl.spiLoadData = false → Settled s.spi →
      Sent s [configWord]
  | initOffered : s.ctrl.state = .init → DacSpi.Free s.spi → Sent s [configWord]
  | initTaken : s.ctrl.state = .init → DacSpi.Busy s.spi → Sent s [configWord,initWord]
  | idle (ds : List (BitVec 20)) : s.ctrl.state = .idle → s.ctrl.spiLoadData = false →
      Sent s (configWord::initWord::ds.map dataWord)
  | send (ds : List (BitVec 20)) : s.ctrl.state = .send →
      Sent s (configWord::initWord::ds.map dataWord)

theorem Sent.inOrder {s : State} {l : List (BitVec 24)} (h : Sent s l) : InOrder l := by
  cases h with
  | configOffered => exact .nothing
  | configTaken | settling | initEntered | initOffered => exact .config
  | initTaken => exact .data []
  | idle ds | send ds => exact .data ds

theorem settled_free {s : DacSpi.State} (h : Settled s) (hd : s.spiDone = false) :
    DacSpi.Free s := by
  rcases h with h | h
  · rw [h.spiDone] at hd
    contradiction
  · exact h

theorem offered_step {s : State} {i : Input} {st next : Fsm} {w : BitVec 24}
    {l : List (BitVec 24)} (hr : i.reset = false) (hs : s.ctrl.state = st)
    (hq : st.request i.data = some (w,next)) (hf : DacSpi.Free s.spi)
    (hoffered : (step s i).ctrl.state = st → DacSpi.Free (step s i).spi → Sent (step s i) l)
    (htaken : (step s i).ctrl.state = st → DacSpi.Busy (step s i).spi →
      Sent (step s i) (l ++ [w])) :
    Sent (step s i) (l ++ (latched s i).toList) := by
  obtain ⟨hs',hstep⟩ := offer_step hr (hs ▸ hq) hf
  rcases hstep with ⟨hw,hf'⟩ | ⟨hw,hb'⟩
  · rw [hw,Option.toList_none,List.append_nil]
    exact hoffered (hs'.trans hs) hf'
  · rw [hw,Option.toList_some]
    exact htaken (hs'.trans hs) hb'

theorem taken_step {s : State} {i : Input} {st next : Fsm} {w : BitVec 24}
    {l : List (BitVec 24)} (hr : i.reset = false) (hs : s.ctrl.state = st)
    (hq : st.request i.data = some (w,next)) (hb : DacSpi.Busy s.spi)
    (htaken : (step s i).ctrl.state = st → DacSpi.Busy (step s i).spi → Sent (step s i) l)
    (hnext : (step s i).ctrl.state = next → (step s i).ctrl.spiLoadData = false →
      Settled (step s i).spi → Sent (step s i) l) :
    Sent (step s i) (l ++ (latched s i).toList) := by
  obtain ⟨hw,hstep⟩ := busy_step hr (hs ▸ hq) hb
  rw [hw,Option.toList_none,List.append_nil]
  rcases hstep with ⟨hs',hb'⟩ | ⟨hs',hl',hset⟩
  · exact htaken (hs'.trans hs) hb'
  · exact hnext hs' hl' hset

theorem settling_step {s : State} {i : Input} (hr : i.reset = false)
    (hs : s.ctrl.state = .delay) (hl : s.ctrl.spiLoadData = false) (hset : Settled s.spi) :
    Sent (step s i) ([configWord] ++ (latched s i).toList) := by
  have hl' := nextCtrl_waiting hr (.inl hs) hl
  obtain ⟨hw,hset'⟩ := settled_step hr hset hl'
  have hs' := nextCtrl_delay hr hs
  rw [hw]
  cases hd : s.delay.delayDone with
  | false => exact .settling (hs'.trans (by rw [hd]; rfl)) hl' hset'
  | true => exact .initEntered (hs'.trans (by rw [hd]; rfl)) hl' hset'

theorem idle_step {s : State} {i : Input} (ds : List (BitVec 20)) (hr : i.reset = false)
    (hs : s.ctrl.state = .idle) (hl : s.ctrl.spiLoadData = false) :
    Sent (step s i) (configWord::initWord::ds.map dataWord ++ (latched s i).toList) := by
  have hl' := nextCtrl_waiting hr (.inr hs) hl
  have hs' := nextCtrl_idle hr hs
  have hw : latched s i = none := DacSpi.latched_of_not_load hl'
  rw [hw,Option.toList_none,List.append_nil]
  cases hd : i.loadData with
  | false => exact .idle ds (hs'.trans (by rw [hd]; rfl)) hl'
  | true => exact .send ds (hs'.trans (by rw [hd]; rfl))

theorem send_step {s : State} {i : Input} (ds : List (BitVec 20)) (hr : i.reset = false)
    (hs : s.ctrl.state = .send) :
    Sent (step s i) (configWord::initWord::ds.map dataWord ++ (latched s i).toList) := by
  have hq := request_send hs i.data
  cases hd : s.spi.spiDone with
  | true =>
      obtain ⟨hs',hl'⟩ := nextCtrl_acknowledged hr hq hd
      have hw : latched s i = none := DacSpi.latched_of_not_load hl'
      rw [hw,Option.toList_none,List.append_nil]
      exact .idle ds hs' hl'
  | false =>
      obtain ⟨hs',hdata,-⟩ := nextCtrl_offered hr hq hd
      rcases DacSpi.latched_eq s.spi (spiInput s i) with hw | hw
      · rw [latched,hw,Option.toList_none,List.append_nil]
        exact .send ds (hs'.trans hs)
      · rw [latched,hw,spiInput_dataIn,hdata]
        have h := Sent.send (s := step s i) (ds ++ [i.data]) (hs'.trans hs)
        simpa only [List.map_append,List.map_cons,List.map_nil,Option.toList_some,
          List.cons_append] using h

/-- One edge without reset. In the first clock of INIT the acknowledgement of
the configuration word must be gone. -/
theorem Sent.step {s : State} {i : Input} {l : List (BitVec 24)} (h : Sent s l)
    (hr : i.reset = false)
    (hinit : s.ctrl.state = .init → s.ctrl.spiLoadData = false → s.spi.spiDone = false) :
    Sent (step s i) (l ++ (latched s i).toList) := by
  cases h with
  | configOffered hs hf => exact offered_step hr hs rfl hf .configOffered .configTaken
  | configTaken hs hb => exact taken_step hr hs rfl hb .configTaken .settling
  | settling hs hl hset => exact settling_step hr hs hl hset
  | initEntered hs hl hset =>
      exact offered_step hr hs rfl (settled_free hset (hinit hs hl)) .initOffered .initTaken
  | initOffered hs hf => exact offered_step hr hs rfl hf .initOffered .initTaken
  | initTaken hs hb =>
      exact taken_step hr hs rfl hb .initTaken (fun hs' hl' _ => .idle [] hs' hl')
  | idle ds hs hl => exact idle_step ds hr hs hl
  | send ds hs => exact send_step ds hr hs

/-- When a reset is released the engine is free, if it was a full RESET_N pulse
or the button found the engine free. -/
theorem free_of_release {s : State} {input : ℕ → Input} (hpulse : ResetPulses 100 input) {r : ℕ}
    (hnext : (input (r+1)).resetN = true)
    (hbtn : (input r).resetN = true → DacSpi.Free (run step s input (r+1)).spi) :
    DacSpi.Free (run step s input (r+1)).spi := by
  cases hr : (input r).resetN with
  | true => exact hbtn hr
  | false =>
      obtain ⟨hlen,hlow⟩ := hpulse r hr hnext
      have hf := free_of_reset_pulse (s := s) (m := r+1-100) (fun k hk hk' =>
        hlow k (by omega) (by omega))
      rwa [Nat.sub_add_cancel hlen] at hf

/-- The order in every run that meets the two conditions since its last reset. -/
theorem startup_order (s : State) (input : ℕ → Input) (hpulse : ResetPulses 100 input)
    (r n : ℕ) (hlast : LastReset input r n)
    (hbtn : (input r).resetN = true → DacSpi.Free (run step s input (r+1)).spi)
    (hinit : ∀ k, r < k → k < n → (run step s input k).ctrl.state = .init →
      (run step s input k).ctrl.spiLoadData = false → (run step s input k).spi.spiDone = false) :
    InOrder (wordsSince s input r n) := by
  obtain ⟨hrn,hreset,hrun⟩ := hlast
  rcases Nat.eq_or_lt_of_le hrn with hn | hn
  · rw [wordsSince,← hn,Nat.sub_self]
    exact .nothing
  · have hrelease := hrun (r+1) (Nat.lt_succ_self r) hn
    have hfree := free_of_release hpulse (Input.resetN_of_not_reset hrelease) hbtn
    have hconfig : (run step s input (r+1)).ctrl.state = .config := (nextCtrl_reset hreset).1
    have hsent := emitted_invariant step s input latched
      Sent (n-(r+1)) (.configOffered hconfig hfree) (fun k l hk hk' hp =>
        hp.step (hrun k (by omega) (by omega)) (hinit k (by omega) (by omega)))
    exact hsent.inOrder

theorem resetPulses_of_first {input : ℕ → Input}
    (h : ∀ n, (input n).resetN = decide (100 ≤ n)) : ResetPulses 100 input := by
  intro n hn hn'
  rw [h,decide_eq_false_iff_not] at hn
  rw [h,decide_eq_true_iff] at hn'
  refine ⟨hn',?_⟩
  intro k hk _
  rw [h,decide_eq_false_iff_not]
  omega

/-- As `cleanStart`, with the button pressed in clock 110, when the engine has not taken a
word yet. -/
def buttonAtRest (n : ℕ) : Input := ⟨decide (100 ≤ n),decide (n = 110),false,0⟩

theorem buttonAtRest_reset {k : ℕ} (h : 111 ≤ k) : (buttonAtRest k).reset = false := by
  simp only [buttonAtRest,Input.reset,Bool.or_eq_false_iff,Bool.not_eq_false',decide_eq_true_iff,
    decide_eq_false_iff_not]
  omega

/-- Both handovers find the engine free: up to the initial value. -/
theorem startup_order_buttonAtRest : ∃ n, LastReset buttonAtRest 110 n ∧
    wordsSince powerUp buttonAtRest 110 n = [configWord,initWord] ∧
      InOrder (wordsSince powerUp buttonAtRest 110 n) := by
  have hr : ∀ k, 111 ≤ k → (buttonAtRest k).reset = false := fun _ => buttonAtRest_reset
  have hs : (run step powerUp buttonAtRest 111).ctrl.state = .config := by decide +kernel
  have hf : DacSpi.Free (run step powerUp buttonAtRest 111).spi :=
    ⟨by decide +kernel,by decide +kernel⟩
  have hu : Unstarted (run step powerUp buttonAtRest 111) := ⟨by decide +kernel,by decide +kernel⟩
  obtain ⟨a,ha,hsilent,hconfig,hst,hs',hb⟩ := reaches_taken .config .delay configWord hr
    (fun _ _ => rfl) hs hf
  have hu' := hu.run (n := a+1) hr (fun _ _ => ⟨configWord,.delay,rfl⟩) (by omega)
    (fun k hk hka => (hst k hk (by omega)).1)
  obtain ⟨b,hab,hsilent',hbefore,hinit⟩ := config_reaches_init (fun k hk => hr k (by omega))
    hs' hb hu'
  obtain ⟨c,hbc,hsilent'',hword,hfree,-⟩ := reaches_taken .init .idle initWord
    (fun k hk => hr k (by omega)) (fun _ _ => rfl) hinit.state hinit.spi
  have hlast : LastReset buttonAtRest 110 (c+1) := ⟨by omega,by decide,fun k hk _ => hr k hk⟩
  have hwords : wordsSince powerUp buttonAtRest 110 (c+1) = [configWord,initWord] := by
    have hlen : c+1-(110+1) = (a+1-111) + (c+1-(a+1)) := by omega
    rw [wordsSince,hlen,emitted_add,hsilent.emitted ha hconfig,Nat.add_sub_cancel' (by omega),
      (hsilent'.trans hsilent'').emitted (by omega) hword]
    rfl
  refine ⟨c+1,hlast,hwords,?_⟩
  apply startup_order powerUp buttonAtRest (resetPulses_of_first fun _ => rfl) 110 (c+1) hlast
  · exact fun _ => hf
  · intro k hk hkc hstate _
    rcases Nat.lt_or_ge k (a+1) with hka | hka
    · rw [(hst k hk (by omega)).1] at hstate
      contradiction
    · rcases Nat.lt_or_ge k b with hkb | hkb
      · exact absurd hstate (hbefore k hka hkb)
      · exact (hfree k hkb (by omega)).2.spiDone

/-- As `cleanStart`, with the button pressed in clock 150, right after the
configuration word was latched. -/
def buttonInFrame (n : ℕ) : Input := ⟨decide (100 ≤ n),decide (n = 150),false,0⟩

/-- The controller takes the end of the old frame for the acknowledgement of its
new configuration request: the first word after the button is the initial value. -/
theorem startup_order_buttonInFrame :
    ResetPulses 100 buttonInFrame ∧ ∃ n, LastReset buttonInFrame 150 n ∧
      ¬ InOrder (wordsSince powerUp buttonInFrame 150 n) := by
  have hr : ∀ k, 151 ≤ k → (buttonInFrame k).reset = false := by
    intro k hk
    simp only [buttonInFrame,Input.reset,Bool.or_eq_false_iff,Bool.not_eq_false',
      decide_eq_true_iff,decide_eq_false_iff_not]
    omega
  refine ⟨resetPulses_of_first (fun _ => rfl),?_⟩
  have hs : (run step powerUp buttonInFrame 151).ctrl.state = .config := by decide +kernel
  have hb : DacSpi.Busy (run step powerUp buttonInFrame 151).spi :=
    ⟨by decide +kernel,by decide +kernel⟩
  have hu : Unstarted (run step powerUp buttonInFrame 151) :=
    ⟨by decide +kernel,by decide +kernel⟩
  obtain ⟨a,ha,hsilent,-,hinit⟩ := config_reaches_init hr hs hb hu
  obtain ⟨b,hab,hsilent',hw,-⟩ := reaches_taken .init .idle initWord
    (fun k hk => hr k (ha.le.trans hk)) (fun k _ => rfl) hinit.state hinit.spi
  refine ⟨b+1,⟨by omega,by decide,fun k hk _ => hr k hk⟩,?_⟩
  have hwords : wordsSince powerUp buttonInFrame 150 (b+1) = [initWord] :=
    (hsilent.trans hsilent').emitted (by omega) hw
  rw [hwords]
  intro h
  exact absurd h.head_eq (by decide)

end FpgaTest.DacStartup
