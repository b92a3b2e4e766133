import FpgaTest.DacProgress
import FpgaTest.OledStages

/-!
# How long the controllers stay in DELAY

Both controllers wait in a state DELAY for their delay generator. The generator
has no reset: it starts over after an edge with `startDelay` low. The display
controller clears `startDelay` on every reset and enters DELAY with the
generator stopped. In the DAC controller `startDelay` is missing from the reset
branch, so a reset in DELAY leaves the generator running, and the next visit
gets what is left of the count.
-/
namespace FpgaTest.DelayVisits
open ClockedMachine DelayGen

section Display
open OledControl

/-- A visit to DELAY without a reset inside. -/
def OledVisit (s : State) (input : ℕ → Input) (a b : ℕ) : Prop :=
  Visit step s input (fun s => s.ctrl.state = .delay) a b ∧
    ∀ k, a < k → k ≤ b → (input k).reset = false

variable {s : State} {input : ℕ → Input} {i : Input} {a b r : ℕ}

theorem oled_follows (s : State) (input : ℕ → Input) : Follows delayLimit
    (fun k => (run step s input k).delay) (fun k => (run step s input k).ctrl.startDelay) :=
  fun _ => rfl

/-- Outside DELAY the generator is off. -/
def Stopped (s : State) : Prop := s.ctrl.state ≠ .delay → s.ctrl.startDelay = false

theorem stopped_of_reset (hr : i.reset = true) : Stopped (step s i) := by
  intro _
  simp [nextCtrl,Controller.step,hr]

theorem Stopped.step (h : Stopped s) : Stopped (step s i) := by
  cases hr : i.reset with
  | true => exact stopped_of_reset hr
  | false =>
      intro hs'
      rw [step_ctrl,OledStages.nextCtrl_startDelay hr]
      by_cases hs : s.ctrl.state = .delay
      · rw [if_pos hs]
        rw [step_ctrl,OledStages.nextCtrl_delay hr hs] at hs'
        cases hd : s.delay.delayDone with
        | true => rfl
        | false =>
            rw [hd] at hs'
            exact absurd rfl hs'
      · rw [if_neg hs]
        exact h hs

theorem stopped_run (hr : (input r).reset = true) (hra : r < a) : Stopped (run step s input a) :=
  run_invariant step s input (fun _ => Stopped) hra (stopped_of_reset hr)
    (fun _ _ _ h => h.step)

theorem OledVisit.done (h : OledVisit s input a b) :
    (run step s input b).delay.delayDone = true := by
  have hs := h.1.stays b h.1.lt le_rfl
  have hleaves := h.1.leaves
  rw [run_succ,step_ctrl,OledStages.nextCtrl_delay (h.2 b h.1.lt le_rfl) hs] at hleaves
  cases hd : (run step s input b).delay.delayDone with
  | true => rfl
  | false =>
      rw [hd] at hleaves
      exact absurd rfl hleaves

/-- After a reset, from any register contents, every visit to DELAY lasts the
full delay. -/
theorem oled_delay_honoured (s : State) (input : ℕ → Input) (r : ℕ)
    (hr : (input r).reset = true) (a b : ℕ) (hra : r ≤ a) (h : OledVisit s input a b) :
    200000 ≤ b - a := by
  have hlt : r < a := by
    rcases Nat.eq_or_lt_of_le hra with rfl | hlt
    · have henters := h.1.stays (r+1) (Nat.lt_succ_self r) h.1.lt
      rw [run_succ,step_ctrl,nextCtrl,Controller.step,if_pos hr] at henters
      contradiction
    · exact hlt
  have hstop := stopped_run (s := s) hr hlt h.1.enters
  have hlate := (oled_follows s input).done_after_stop hstop h.1.lt h.done
  have hlimit : delayLimit.toNat = 200000 := rfl
  omega

theorem exists_oledVisit (hs : (run step s input a).ctrl.state ≠ .delay)
    (hs' : (run step s input (a+1)).ctrl.state = .delay)
    (hn : (run step s input (a+1)).ctrl.nextState ≠ .delay)
    (hr : ∀ k, a < k → (input k).reset = false) : ∃ b, OledVisit s input a b := by
  obtain ⟨b,hb⟩ := exists_visit (P := fun s => s.ctrl.state = .delay)
    (fun s => s.ctrl.state = .delay ∧ s.ctrl.nextState ≠ .delay) OledStages.delayClocks hs
    (fun _ h => h.1) ⟨hs',hn⟩ (by
      intro k hk hp
      have hnext := OledStages.nextCtrl_delay (hr k hk) hp.1
      cases hd : (run step s input k).delay.delayDone with
      | true =>
          left
          rw [step_ctrl,hnext,hd]
          exact hp.2
      | false =>
          right
          refine ⟨?_,OledStages.delayClocks_step (hr k hk) hp.1 hd⟩
          rw [step_ctrl,hnext,hd]
          exact ⟨rfl,hp.2⟩)
  exact ⟨b,hb,fun k hk _ => hr k hk⟩

/-- One clock of RESET_N. -/
def shortPulse (n : ℕ) : Input := ⟨decide (0 < n),false,0,false⟩

/-- The first visit after a reset is the one to power on the logic supply. -/
theorem oled_delay_honoured_shortPulse :
    ∃ b, OledVisit powerUp shortPulse 1 b ∧ 200000 ≤ b - 1 := by
  have hr : ∀ k, 1 < k → (shortPulse k).reset = false := by
    intro k hk
    simp only [shortPulse,Input.reset,Bool.or_false,Bool.not_eq_false',decide_eq_true_eq]
    omega
  obtain ⟨b,hb⟩ := exists_oledVisit (s := powerUp) (a := 1) (by decide) (by decide) (by decide) hr
  exact ⟨b,hb,oled_delay_honoured powerUp shortPulse 0 (by decide) 1 b (by decide) hb⟩

end Display

section Dac
open Cn0531

/-- A visit to DELAY without a reset inside. -/
def DacVisit (s : State) (input : ℕ → Input) (a b : ℕ) : Prop :=
  Visit step s input (fun s => s.ctrl.state = .delay) a b ∧
    ∀ k, a < k → k ≤ b → (input k).reset = false

variable {s : State} {input : ℕ → Input} {i : Input} {a b : ℕ}

theorem dac_follows (s : State) (input : ℕ → Input) : Follows delayLimit
    (fun k => (run step s input k).delay) (fun k => (run step s input k).ctrl.startDelay) :=
  fun _ => rfl

theorem DacVisit.done_iff (h : DacVisit s input a b) {k : ℕ} (hk : a < k) (hkb : k ≤ b) :
    (run step s input k).delay.delayDone = true ↔ k = b := by
  have hnext := nextCtrl_delay (h.2 k hk hkb) (h.1.stays k hk hkb)
  constructor
  · intro hd
    rw [hd,if_pos rfl] at hnext
    by_contra hne
    have hstays := h.1.stays (k+1) (by omega) (by omega)
    rw [run_succ,step_ctrl,hnext] at hstays
    contradiction
  · intro hkb
    subst hkb
    have hleaves := h.1.leaves
    rw [run_succ,step_ctrl,hnext] at hleaves
    cases hd : (run step s input k).delay.delayDone with
    | true => rfl
    | false =>
        rw [hd] at hleaves
        exact absurd rfl hleaves

theorem startDelay_step_of_ne (hs : s.ctrl.state ≠ .delay) :
    (step s i).ctrl.startDelay = s.ctrl.startDelay := by
  rw [step_ctrl,nextCtrl,Controller.step]
  cases hr : i.reset with
  | true => rfl
  | false =>
      cases hst : s.ctrl.state with
      | delay => exact absurd hst hs
      | config | init | idle | send =>
          simp only [Bool.false_eq_true,if_false]
          split <;> rfl

theorem DacVisit.started (h : DacVisit s input a b)
    (hstart : (run step s input a).ctrl.startDelay = true) {k : ℕ} (hk : a ≤ k) (hkb : k ≤ b) :
    (run step s input k).ctrl.startDelay = true := by
  rcases Nat.eq_or_lt_of_le hk with rfl | hlt
  · exact hstart
  · obtain ⟨j,rfl⟩ : ∃ j, k = j+1 := ⟨k-1,by omega⟩
    rcases Nat.eq_or_lt_of_le (Nat.le_of_lt_succ hlt) with rfl | haj
    · rw [run_succ,startDelay_step_of_ne h.1.enters,hstart]
    · have hd : (run step s input j).delay.delayDone = false := by
        rw [Bool.eq_false_iff,Ne,h.done_iff haj (by omega)]
        omega
      exact nextCtrl_startDelay_delay (h.2 j haj (by omega)) (h.1.stays j haj (by omega)) hd

theorem counter_le_limit (input : ℕ → Input) (n : ℕ) :
    (run step powerUp input n).delay.counter.toNat ≤ delayLimit.toNat :=
  run_invariant step powerUp input (fun _ s => s.delay.counter.toNat ≤ delayLimit.toNat)
    (Nat.zero_le n) (Nat.zero_le _) (fun _ _ _ h => counter_step_le_limit h)

/-- The generator is stopped at the entry, or has only just begun to count. -/
def Fresh (s : State) : Prop := s.ctrl.startDelay = false ∨ s.delay.counter.toNat ≤ 1

theorem DacVisit.length_le (h : DacVisit powerUp input a b)
    (hstart : (run step powerUp input a).ctrl.startDelay = true) :
    b + (run step powerUp input a).delay.counter.toNat ≤ a + delayLimit.toNat + 1 := by
  have hle := counter_le_limit input a
  obtain ⟨j,hj⟩ := Nat.exists_eq_add_of_le hle
  by_contra hlong
  have hend : a+j+1 < b := by omega
  have hdone := (dac_follows powerUp input).done_reached
    (fun k hk hkj => h.started hstart hk (by omega)) hj.symm
  have := (h.done_iff (show a < a+j+1 by omega) hend.le).mp hdone
  omega

theorem DacVisit.length_ge_iff (h : DacVisit powerUp input a b) :
    10000000 ≤ b - a ↔ Fresh (run step powerUp input a) := by
  have hlimit : delayLimit.toNat = 10000000 := rfl
  have hlt := h.1.lt
  have hdone := (h.done_iff hlt le_rfl).mpr rfl
  constructor
  · intro hlong
    cases hstart : (run step powerUp input a).ctrl.startDelay with
    | false => exact .inl hstart
    | true =>
        have hle := h.length_le hstart
        exact .inr (by omega)
  · intro hfresh
    rcases hfresh with hstop | hcount
    · have hlate := (dac_follows powerUp input).done_after_stop hstop hlt hdone
      omega
    · obtain ⟨j,rfl⟩ : ∃ j, b = a+j+1 := ⟨b-a-1,by omega⟩
      have hlate := (dac_follows powerUp input).done_late hdone
      omega

/-- Every uncut visit lasts the full delay exactly when every one is entered with
a fresh generator. -/
theorem dac_delay_honoured_iff (input : ℕ → Input) :
    (∀ a b, DacVisit powerUp input a b → 10000000 ≤ b - a) ↔
      ∀ a b, DacVisit powerUp input a b → Fresh (run step powerUp input a) := by
  constructor
  · intro h a b hv
    exact hv.length_ge_iff.mp (h a b hv)
  · intro h a b hv
    exact hv.length_ge_iff.mpr (h a b hv)

theorem exists_dacVisit (hs : (run step s input a).ctrl.state ≠ .delay)
    (hs' : (run step s input (a+1)).ctrl.state = .delay)
    (hr : ∀ k, a < k → (input k).reset = false) : ∃ b, DacVisit s input a b := by
  obtain ⟨b,hb⟩ := exists_visit (P := fun s => s.ctrl.state = .delay)
    (fun s => s.ctrl.state = .delay) DacProgress.delayClocks hs (fun _ h => h) hs' (by
      intro k hk hp
      have hnext := nextCtrl_delay (hr k hk) hp
      cases hd : (run step s input k).delay.delayDone with
      | true =>
          left
          rw [step_ctrl,hnext,hd]
          decide
      | false =>
          right
          refine ⟨?_,DacProgress.delayClocks_step (hr k hk) hp hd⟩
          rw [step_ctrl,hnext,hd]
          rfl)
  exact ⟨b,hb,fun k hk _ => hr k hk⟩

/-- The button is pressed for one clock, in the third clock of the first visit. -/
def buttonInDelay (n : ℕ) : Input := ⟨true,decide (n = 2553),false,0⟩

theorem buttonInDelay_reset {k : ℕ} (h : k ≠ 2553) : (buttonInDelay k).reset = false := by
  simpa [buttonInDelay,Input.reset] using h

/-- CONFIG with `c` clocks to the end of the frame. -/
structure Serving (c : ℕ) (s : State) : Prop where
  state : s.ctrl.state = .config
  spi : DacSpi.Busy s.spi
  clocks : DacSpi.busyClocks s.spi = c
  startDelay : s.ctrl.startDelay = false

theorem Serving.step {c : ℕ} (h : Serving (c+1) s) (hc : 100 ≤ c) (hr : i.reset = false) :
    Serving c (step s i) := by
  have hq : s.ctrl.state.request i.data = some (configWord,.delay) := by rw [h.state]; rfl
  have hd := DacSpi.spiDone_of_busyClocks h.spi.spiDone (by have := h.clocks; omega)
  obtain ⟨hs',-,hl'⟩ := nextCtrl_offered hr hq hd
  have hrN := Input.resetN_of_not_reset hr
  refine ⟨hs'.trans h.state,h.spi.step hrN hl',?_,(nextCtrl_startDelay hr hq).trans h.startDelay⟩
  have hclocks := DacSpi.busyClocks_step hrN h.spi (i := spiInput s i) (by rw [hd]; exact hl')
  have := h.clocks
  rw [step_spi]
  omega

theorem Serving.acknowledging (h : Serving 100 s) : DacSpi.Acknowledging s.spi := by
  apply h.spi.acknowledging
  have hpos := s.spi.div.toRise_pos
  have hclocks := h.clocks
  unfold DacSpi.busyClocks at hclocks
  cases hd : s.spi.spiDone with
  | true => rfl
  | false =>
      cases hs : s.spi.state with
      | idle => exact absurd hs h.spi.state
      | send =>
          rw [hs] at hclocks
          simp only at hclocks
          omega
      | done =>
          rw [hs] at hclocks
          simp only [hd,Bool.false_eq_true,if_false] at hclocks
          omega

theorem acknowledging_step {c : ℕ} (h : DacSpi.Acknowledging s.spi)
    (hc : DacSpi.busyClocks s.spi = c+2) (hrN : i.resetN = true)
    (hl : (nextCtrl s i).spiLoadData = false) :
    DacSpi.Acknowledging (step s i).spi ∧ DacSpi.busyClocks (step s i).spi = c+1 := by
  have hclocks := DacSpi.busyClocks_step hrN h.busy (i := spiInput s i)
    (by rw [h.spiDone]; exact hl)
  have hnext : DacSpi.busyClocks (step s i).spi = c+1 := by
    rw [step_spi]
    omega
  refine ⟨?_,hnext⟩
  rcases h.step (i := spiInput s i) hrN hl with ha | hf
  · exact ha
  · have hzero := DacSpi.busyClocks_eq_zero_iff.mpr hf.state
    rw [step_spi] at hnext
    omega

/-- DELAY with the acknowledgement of the last word still there for `c` clocks. -/
structure Lingering (c : ℕ) (s : State) : Prop where
  state : s.ctrl.state = .delay
  load : s.ctrl.spiLoadData = false
  spi : DacSpi.Acknowledging s.spi
  clocks : DacSpi.busyClocks s.spi = c

theorem Serving.lingering (h : Serving 100 s) (hr : i.reset = false) :
    Lingering 99 (Cn0531.step s i) := by
  have hq : s.ctrl.state.request i.data = some (configWord,.delay) := by rw [h.state]; rfl
  obtain ⟨hs',hl'⟩ := nextCtrl_acknowledged hr hq h.acknowledging.spiDone
  obtain ⟨ha,hc⟩ := acknowledging_step h.acknowledging h.clocks (Input.resetN_of_not_reset hr) hl'
  exact ⟨hs',hl',ha,hc⟩

theorem Lingering.step {c : ℕ} (h : Lingering (c+2) s) (hr : i.reset = false)
    (hd : s.delay.delayDone = false) :
    Lingering (c+1) (step s i) ∧ (step s i).ctrl.startDelay = true := by
  have hl' := nextCtrl_waiting hr (.inl h.state) h.load
  have hs' := nextCtrl_delay hr h.state
  rw [hd,if_neg Bool.false_ne_true] at hs'
  obtain ⟨ha,hc⟩ := acknowledging_step h.spi h.clocks (Input.resetN_of_not_reset hr) hl'
  exact ⟨⟨hs',hl',ha,hc⟩,nextCtrl_startDelay_delay hr h.state hd⟩

theorem buttonInDelay_serving {n : ℕ} (hn : 50 ≤ n) (hle : n ≤ 2550) :
    Serving (2650-n) (run step powerUp buttonInDelay n) := by
  have hfirst : Serving 2600 (run step powerUp buttonInDelay 50) :=
    ⟨by decide +kernel,⟨by decide +kernel,by decide +kernel⟩,by decide +kernel,by decide +kernel⟩
  refine run_invariant step powerUp buttonInDelay (fun k => Serving (2650-k)) hn hfirst ?_
  intro k hk hkn h
  have hsub : 2650-k = 2650-(k+1)+1 := by omega
  rw [hsub] at h
  exact h.step (by omega) (buttonInDelay_reset (by omega))

/-- After the button CONFIG meets the old acknowledgement, so DELAY is entered
again at once with the generator running. -/
theorem reenters_of_serving {n : ℕ} (h : Serving 100 (run step s input n))
    (hr : ∀ k, n ≤ k → k ≠ n+3 → (input k).reset = false) (hbtn : (input (n+3)).reset = true)
    (hrN : (input (n+3)).resetN = true) :
    (run step s input (n+4)).ctrl.state = .config ∧ ¬ Fresh (run step s input (n+4)) ∧
      (run step s input (n+5)).ctrl.state = .delay := by
  have h1 : Lingering 99 (run step s input (n+1)) := h.lingering (hr n le_rfl (by omega))
  have hstart1 : (run step s input (n+1)).ctrl.startDelay = false :=
    (startDelay_step_of_ne (by rw [h.state]; decide)).trans h.startDelay
  have hdelay1 : (run step s input (n+1)).delay = ⟨0,false⟩ := by
    rw [run_succ,step_delay,h.startDelay,step_stopped]
  have h2 : Lingering 98 (run step s input (n+2)) ∧
      (run step s input (n+2)).ctrl.startDelay = true :=
    h1.step (hr _ (by omega) (by omega)) (by rw [hdelay1])
  have hdelay2 : (run step s input (n+2)).delay = ⟨0,false⟩ := by
    rw [run_succ,step_delay,hstart1,step_stopped]
  have h3 : Lingering 97 (run step s input (n+3)) ∧
      (run step s input (n+3)).ctrl.startDelay = true :=
    h2.1.step (hr _ (by omega) (by omega)) (by rw [hdelay2])
  have hdelay3 : (run step s input (n+3)).delay = ⟨1,false⟩ := by
    rw [run_succ,step_delay,hdelay2,h2.2,step_counting (by decide)]
    rfl
  have hdelay4 : (run step s input (n+4)).delay = ⟨2,false⟩ := by
    rw [run_succ,step_delay,hdelay3,h3.2,step_counting (by decide)]
    rfl
  have hstart4 : (run step s input (n+4)).ctrl.startDelay = true := by
    rw [run_succ,step_ctrl,nextCtrl,Controller.step,if_pos hbtn]
    exact h3.2
  have h4 : (run step s input (n+4)).ctrl.state = .config ∧
      (run step s input (n+4)).ctrl.spiLoadData = false := nextCtrl_reset hbtn
  have hack := (acknowledging_step h3.1.spi h3.1.clocks hrN h4.2).1
  refine ⟨h4.1,?_,?_⟩
  · unfold Fresh
    rw [hstart4,hdelay4]
    decide
  · have hq : (run step s input (n+4)).ctrl.state.request (input (n+4)).data =
        some (configWord,.delay) := by
      rw [h4.1]
      rfl
    exact (nextCtrl_acknowledged (hr _ (by omega) (by omega)) hq hack.spiDone).1

/-- After the button in the first visit the second one ends too early. -/
theorem dac_delay_cut_short :
    ∃ a b, DacVisit powerUp buttonInDelay a b ∧ b - a < 10000000 := by
  have hserving := buttonInDelay_serving (show 50 ≤ 2550 by decide) le_rfl
  obtain ⟨hs,hfresh,hs'⟩ := reenters_of_serving hserving
    (fun k _ hk => buttonInDelay_reset hk) (by decide) rfl
  obtain ⟨b,hb⟩ := exists_dacVisit (by rw [hs]; decide) hs'
    (fun k hk => buttonInDelay_reset (by omega))
  exact ⟨_,b,hb,Nat.lt_of_not_le (fun hle => hfresh (hb.length_ge_iff.mp hle))⟩

end Dac

end FpgaTest.DelayVisits
