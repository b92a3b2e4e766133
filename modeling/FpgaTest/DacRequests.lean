import FpgaTest.VoltageUpdates

/-!
# A request to the idle DAC controller

IDLE has no wait for the end of the last acknowledgement. A request that comes
while `spi_done` is still high sends the controller to SEND and straight back,
with `spiLoadData` low, until the engine has returned to IDLE; only then does
SEND stay and offer the word. Both waits are bounded by a period of the divided
clock each, so a request held for 1000 clocks is always taken.

The states considered are those reached after one RESET_N pulse of 100 clocks,
with any inputs since then.
-/
namespace FpgaTest.DacRequests
open ClockedMachine ClockDivider Cn0531 DacSerial VoltageUpdates

/-- Reached after a RESET_N pulse of at least 100 clocks, whatever followed. -/
def Reached (b : Bench) : Prop :=
  ∃ (start : Bench) (input : ℕ → Input) (m n : ℕ), 100 ≤ m ∧ m ≤ n ∧
    (∀ k < m, (input k).resetN = false) ∧ b = run Bench.step start input n

variable {b : Bench} {i : Input} {input : ℕ → Input} {d : BitVec 20}

theorem paired_of_reset (hf : Framed b.dac.spi) (hr : i.reset = true) : Paired (b.step i).dac := by
  have hs : (b.step i).dac.ctrl.state = .config := (nextCtrl_reset hr).1
  have hf' : Framed (b.step i).dac.spi := hf.step _
  by_cases hspi : (b.step i).dac.spi.state = .idle
  · exact .offering (by rw [hs]; decide) ⟨hspi,hf'.spiDone_low (by rw [hspi]; decide)⟩
  · exact .serving (by rw [hs]; decide) ⟨hspi,hf'.spiDone⟩

theorem Reached.sound (h : Reached b) : Framed b.dac.spi ∧ Paired b.dac := by
  rcases h with ⟨start,input,m,n,hm,hmn,hlow,rfl⟩
  have hstart := started_of_reset_pulse start input m hm hlow
  refine run_invariant Bench.step start input
    (fun _ (b : Bench) => Framed b.dac.spi ∧ Paired b.dac) hmn ⟨hstart.framed,hstart.paired⟩ ?_
  intro k _ _ h
  refine ⟨h.1.step _,?_⟩
  cases hr : (input k).reset with
  | true => exact paired_of_reset h.1 hr
  | false => exact h.2.step hr

theorem busyClocks_le_of_idle (h : Paired b.dac) (hs : b.dac.ctrl.state = .idle) :
    DacSpi.busyClocks b.dac.spi ≤ 100 := by
  cases h with
  | waiting _ _ hset =>
      rcases hset with ha | hf
      · exact ha.busyClocks_le
      · rw [DacSpi.busyClocks_eq_zero_iff.mpr hf.state]
        exact Nat.zero_le _
  | offering hne _ | serving hne _ => exact absurd hs hne.2

theorem exists_open (h : Ready b) (hs : b.dac.ctrl.state = .idle)
    (hr : ∀ k, (input k).reset = false) (hload : ∀ k < 1000, (input k).loadData = true) :
    ∃ m ≤ 101, (run Bench.step b input m).dac.ctrl.state = .send ∧
      DacSpi.Free (run Bench.step b input m).dac.spi := by
  have hle := busyClocks_le_of_idle h.paired hs
  have hspi := idle_after_busyClocks h input hr
  have hready := h.run input (DacSpi.busyClocks b.dac.spi) (fun k _ => hr k)
  rcases hready.state with hidle | hsend
  · refine ⟨DacSpi.busyClocks b.dac.spi + 1,by omega,?_,?_⟩
    · rw [run_succ,Bench.step_dac,step_ctrl,nextCtrl_idle (hr _) hidle,hload _ (by omega)]
      rfl
    · exact ((hready.resting ⟨hidle,hspi⟩).step (.inr rfl) (hr _)).2.2
  · exact ⟨_,by omega,hsend,hready.free hspi⟩

theorem free_of_silent {m : ℕ} (len : ℕ) (hr : ∀ k, (input k).reset = false)
    (hs : (run Bench.step b input m).dac.ctrl.state = .send)
    (hf : DacSpi.Free (run Bench.step b input m).dac.spi)
    (hnone : ∀ k, m ≤ k → k < m+len →
      latched (run Bench.step b input k).dac (input k) = none) :
    DacSpi.Free (run Bench.step b input (m+len)).dac.spi := by
  refine (run_invariant Bench.step b input
    (fun _ (b : Bench) => b.dac.ctrl.state = .send ∧ DacSpi.Free b.dac.spi)
    (Nat.le_add_right m len) ⟨hs,hf⟩ ?_).2
  intro k hk hkm hp
  obtain ⟨hs',⟨-,hf'⟩ | ⟨hw,-⟩⟩ := offer_step (hr k) (request_send hp.1 _) hp.2
  · exact ⟨hs'.trans hp.1,hf'⟩
  · rw [hnone k hk hkm] at hw
    contradiction

theorem exists_latched (h : Ready b) (hs : b.dac.ctrl.state = .idle)
    (hr : ∀ k, (input k).reset = false)
    (hload : ∀ k < 1000, (input k).loadData = true ∧ (input k).data = d) :
    ∃ n < 1000, latched (run Bench.step b input n).dac (input n) ≠ none := by
  obtain ⟨m,hm,hsend,hf⟩ := exists_open h hs hr (fun k hk => (hload k hk).1)
  by_contra hnone
  push Not at hnone
  have hfree := free_of_silent 100 hr hsend hf (fun k _ hk => hnone k (by omega))
  have hfly := flying_of_open d (fun k => input (m+k)) (h.run input m (fun k _ => hr k)) hsend hf
    (fun k _ => hr _) (fun k hk => (hload _ (by omega)).2)
  rw [← run_add] at hfly
  have hclocks := hfly.clocks
  rw [DacSpi.busyClocks_eq_zero_iff.mpr hfree.state] at hclocks
  omega

/-- SEND with the engine at work on `w`. -/
structure Serving (w : BitVec 24) (b : Bench) : Prop where
  ready : Ready b
  state : b.dac.ctrl.state = .send
  spi : DacSpi.Busy b.dac.spi
  sends : Sends w b

theorem serving_of_latched (h : Ready b) (hr : i.reset = false) {w : BitVec 24}
    (hw : latched b.dac i = some w) : Serving w (b.step i) := by
  obtain ⟨-,-,hspi,hl,-⟩ := DacSpi.latched_eq_some_iff.mp hw
  have hf := h.free hspi
  have hs : b.dac.ctrl.state = .send := by
    rcases h.state with hs | hs
    · have hl' := nextCtrl_waiting hr (.inr hs) (h.resting ⟨hs,hspi⟩).load
      rw [spiInput_spiLoad,hl'] at hl
      contradiction
    · exact hs
  obtain ⟨hs',⟨hn,-⟩ | ⟨-,hb⟩⟩ := offer_step hr (request_send hs i.data) hf
  · rw [hn] at hw
    contradiction
  · exact ⟨h.step hr,hs'.trans hs,hb,sends_of_latched hw⟩

/-- SEND is left only on the acknowledgement, when the word has been accepted. -/
theorem Serving.step {w : BitVec 24} (h : Serving w b) (hr : i.reset = false) :
    Serving w (b.step i) ∨ ((b.step i).dac.ctrl.state ≠ .send ∧ sent b.dac.spi = 24 ∧
      b.rx.words.getLast? = some w) := by
  have hq := request_send h.state i.data
  cases hd : b.dac.spi.spiDone with
  | false =>
      have hl := nextCtrl_offered hr hq hd
      exact .inl ⟨h.ready.step hr,hl.1.trans h.state,
        h.spi.step (Input.resetN_of_not_reset hr) hl.2.2,
        h.ready.sends_step h.sends h.spi.state hr⟩
  | true =>
      have hack := h.spi.acknowledging hd
      have hs' : (b.step i).dac.ctrl.state = .idle := (nextCtrl_acknowledged hr hq hd).1
      right
      exact ⟨by rw [hs']; decide,by simp [sent,hack.state],
        Transmits.accepted h.sends (by simp [inFlight,hack.state,hd])⟩

/-- A request held for 1000 clocks from IDLE on is the next word latched, and
SEND is not left before its 24 bits are out. -/
theorem request_sent (b : Bench) (h : Reached b) (hidle : b.dac.ctrl.state = .idle)
    (d : BitVec 20) (input : ℕ → Input) (hr : ∀ k, (input k).reset = false)
    (hload : ∀ k < 1000, (input k).loadData = true ∧ (input k).data = d) :
    ∃ n < 1000, latched (run Bench.step b input n).dac (input n) = some (1#4 ++ d) ∧
      (∀ k < n, latched (run Bench.step b input k).dac (input k) = none) ∧
      (run Bench.step b input (n+1)).dac.ctrl.state = .send ∧
      ∀ q, n < q → (∀ k, n < k → k ≤ q → (run Bench.step b input k).dac.ctrl.state = .send) →
        (run Bench.step b input (q+1)).dac.ctrl.state ≠ .send →
        sent (run Bench.step b input q).dac.spi = 24 ∧
          (run Bench.step b input q).rx.words.getLast? = some (1#4 ++ d) := by
  classical
  have hready : Ready b := ⟨h.sound.1,h.sound.2,.inl hidle⟩
  have hrun : ∀ k, Ready (run Bench.step b input k) :=
    fun k => hready.run input k (fun j _ => hr j)
  have hex := exists_latched hready hidle hr hload
  obtain ⟨hn,hlatch⟩ := Nat.find_spec hex
  have hfirst : ∀ k < Nat.find hex, latched (run Bench.step b input k).dac (input k) = none := by
    intro k hk
    by_contra hne
    exact Nat.find_min hex hk ⟨hk.trans hn,hne⟩
  have hword : latched (run Bench.step b input (Nat.find hex)).dac (input (Nat.find hex)) =
      some (dataWord d) := by
    have heq := ((hrun (Nat.find hex)).latched_eq (hr _)).resolve_left hlatch
    rwa [(hload _ hn).2] at heq
  have hserving := serving_of_latched (hrun _) (hr _) hword
  refine ⟨Nat.find hex,hn,hword,hfirst,hserving.state,?_⟩
  intro q hq hstay hleave
  have hend : Serving (dataWord d) (run Bench.step b input q) := by
    refine run_invariant Bench.step b input (fun _ => Serving (dataWord d)) hq hserving ?_
    intro k hk hkq hp
    rcases hp.step (hr k) with hp' | ⟨hs',-⟩
    · exact hp'
    · exact absurd (hstay (k+1) (by omega) (by omega)) hs'
  rcases hend.step (hr q) with hp' | ⟨-,hsent⟩
  · exact absurd hp'.state hleave
  · exact hsent

/-- After a clean start, a request of code 5 while the controller rests. -/
theorem request_sent_cleanStart :
    ∃ b, Reached b ∧ b.dac.ctrl.state = .idle ∧ ∃ n < 1000,
      latched (run Bench.step b (fun _ => ⟨true,false,true,5⟩) n).dac ⟨true,false,true,5⟩ =
        some 0x100005 := by
  obtain ⟨n,hn,hrest⟩ := DacProgress.cleanStart_reaches_idle
  have hidle :
      (run Bench.step VoltageUpdates.start DacProgress.cleanStart n).dac.ctrl.state = .idle := by
    rw [Bench.run_dac]
    exact hrest.state
  have hreached : Reached (run Bench.step VoltageUpdates.start DacProgress.cleanStart n) := by
    refine ⟨VoltageUpdates.start,DacProgress.cleanStart,100,n,le_rfl,hn,?_,rfl⟩
    intro k hk
    simpa [DacProgress.cleanStart] using hk
  obtain ⟨k,hk,hlatch,-⟩ := request_sent _ hreached hidle 5 (fun _ => ⟨true,false,true,5⟩)
    (fun _ => rfl) (fun _ _ => ⟨rfl,rfl⟩)
  exact ⟨_,hreached,hidle,k,hk,hlatch⟩

end FpgaTest.DacRequests
