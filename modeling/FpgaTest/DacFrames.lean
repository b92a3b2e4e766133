import FpgaTest.DacSerial
import FpgaTest.Transactions

/-!
# Frames of the DAC serializer on its pins

From the edge at which a word is latched, the engine does not depend on its
inputs until the frame is over: the phase of the divider, the bits shown and the
word left in the shift register are functions of the number of edges since then
(`FlightAt`). The pins follow, edge by edge.

Edges are those of the base clock; the pins with index `k` are seen before edge
`k`, and an edge of a pin happens at `k` if the pin differs at `k` and `k+1`.
-/
namespace FpgaTest.DacFrames
open ClockDivider ClockedMachine DacSpi DacSerial Transactions

/-- The receiver takes a sample at this edge. -/
def sampled (s : State) (i : Input) : Option Bool :=
  let before := pins s
  let after := pins (step s i)
  if before.spiClock && !after.spiClock && !after.spiSync then some after.spiData else none

/-- `spi_sync` falls at edge `a`, stays low and rises at edge `b`. -/
structure SyncLow (s : State) (input : ℕ → Input) (a b : ℕ) : Prop where
  lt : a < b
  high_before : (run step s input a).spiSync = true
  low : ∀ k, a < k → k ≤ b → (run step s input k).spiSync = false
  high_after : (run step s input (b+1)).spiSync = true

/-- The word latched at edge `n` goes out between the falling and the rising
edge of `spi_sync`: it is all that is sampled there, and none of it before. -/
structure Frame (s : State) (input : ℕ → Input) (w : BitVec 24) (n a b : ℕ) : Prop where
  latch : latched (run step s input n) (input n) = some w
  lt : n < a
  high : ∀ k, n ≤ k → k ≤ a → (run step s input k).spiSync = true
  sync : SyncLow s input a b
  samples : emitted step s input sampled a (b+1-a) = bitsOf w 24

/-- The engine `j` edges after it has latched `w`. -/
structure FlightAt (w : BitVec 24) (j : ℕ) (s : State) : Prop where
  framed : Framed s
  flying : inFlight s = true
  toRise : s.div.toRise = 100 - j % 100
  shown : sent s = j/100
  shiftReg : s.shiftReg = w <<< sent s
  spiData : 0 < sent s → s.spiData = w.getMsbD (sent s - 1)

variable {s : State} {i : Input} {w : BitVec 24} {j : ℕ}

theorem flightAt_of_latched (hf : Framed s) (h : latched s i = some w) :
    FlightAt w 0 (step s i) := by
  have hframed := hf.step i
  obtain ⟨ht,hr,hs,hl,hw⟩ := latched_eq_some_iff.mp h
  have hrise := Divider.toRise_step_of_rises ht
  rw [step_latch ht hr hs hl] at hframed ⊢
  exact ⟨hframed,rfl,hrise,rfl,by simp [sent,hw],by simp [sent]⟩

/-- In flight a rising edge of the divided clock shows the next bit, or ends
the frame behind the last one. -/
theorem FlightAt.step (h : FlightAt w j s) (hr : i.resetN = true) (hj : j < 2499) :
    FlightAt w (j+1) (step s i) := by
  have hrise := h.toRise
  have hsent := h.shown
  have hframed := h.framed.step i
  cases ht : s.div.rises with
  | false =>
      have hnext := Divider.toRise_step_of_not_rises ht
      have hne : s.div.toRise ≠ 1 := fun he => by simp [(Divider.rises_iff s.div).mpr he] at ht
      rw [step_of_not_rises i ht] at hframed ⊢
      refine ⟨hframed,h.flying,?_,?_,h.shiftReg,h.spiData⟩
      · change s.div.step.toRise = _
        omega
      · change sent s = _
        omega
  | true =>
      have hone := (Divider.rises_iff s.div).mp ht
      have hs : s.state = .send := by
        have hfl := h.flying
        cases hs : s.state with
        | idle => simp [inFlight,hs] at hfl
        | send => rfl
        | done =>
            have hall : sent s = 24 := by simp [sent,hs]
            omega
      obtain ⟨hsent',hfl',-,hdata,hshift⟩ := step_send h.framed ht hr hs (i := i)
      have hperiod := Divider.toRise_step_of_rises ht
      refine ⟨hframed,hfl',?_,by omega,?_,?_⟩
      · rw [step_div,hperiod]
        omega
      · rw [hshift,h.shiftReg,hsent',BitVec.shiftLeft_add]
      · intro _
        rw [hdata,h.shiftReg,BitVec.msb_shiftLeft,hsent',Nat.add_sub_cancel]

theorem FlightAt.done (h : FlightAt w j s) (hj : 2400 ≤ j) : s.state = .done := by
  have hsent := h.shown
  have hfl := h.flying
  cases hs : s.state with
  | idle => simp [inFlight,hs] at hfl
  | send =>
      have hcount := h.framed.count hs
      simp only [sent,hs] at hsent
      omega
  | done => rfl

theorem not_inFlight_step_of_done (ht : s.div.rises = true) (hr : i.resetN = true)
    (hs : s.state = .done) : inFlight (step s i) = false := by
  cases hl : i.spiLoad with
  | false =>
      rw [step_release ht hr hs hl]
      rfl
  | true =>
      rw [step_acknowledge ht hr hs hl]
      simp [inFlight,hs]

theorem FlightAt.ends (h : FlightAt w 2499 s) (hr : i.resetN = true) :
    inFlight (DacSpi.step s i) = false := by
  have hone := h.toRise
  have ht : s.div.rises = true := (Divider.rises_iff s.div).mpr (by omega)
  exact not_inFlight_step_of_done ht hr (h.done (by decide))

theorem not_inFlight_step (h : inFlight s = false) (hr : i.resetN = true)
    (hn : latched s i = none) : inFlight (step s i) = false := by
  cases ht : s.div.rises with
  | false =>
      rw [step_of_not_rises i ht]
      exact h
  | true =>
      cases hs : s.state with
      | idle =>
          have hl : i.spiLoad = false := by simpa [latched,ht,hr,hs] using hn
          rw [step_rest ht hr hs hl]
          exact h
      | send => simp [inFlight,hs] at h
      | done => exact not_inFlight_step_of_done ht hr hs

theorem FlightAt.spiSync (h : FlightAt w j s) : s.spiSync = decide (j < 100) := by
  rw [h.framed.sync,h.flying,h.shown,Bool.true_and,← decide_not,decide_eq_decide]
  omega

theorem FlightAt.spiClock (h : FlightAt w j s) : DacSpi.spiClock s = decide (j % 100 < 50) := by
  have hce : s.ce = true := h.framed.ce.trans h.flying
  rw [DacSpi.spiClock,hce,if_pos rfl,Divider.clock_eq,h.toRise,decide_eq_decide]
  omega

theorem spiSync_of_not_inFlight (hf : Framed s) (h : inFlight s = false) : s.spiSync = true :=
  hf.sync_high (by simp [h])

/-- In the middle of each period behind the first, the bit shown is sampled. -/
theorem FlightAt.sampled_eq (h : FlightAt w j s) (hr : i.resetN = true) (hj : j < 2500) :
    sampled s i = if j % 100 = 49 ∧ 100 ≤ j then some (w.getMsbD (j/100 - 1)) else none := by
  have hbefore := h.spiClock
  by_cases hlow : j % 100 < 50
  · have hnext := h.step (i := i) hr (by omega)
    have hafter := hnext.spiClock
    have hsync := hnext.spiSync
    have hdata := hnext.spiData
    rw [hnext.shown] at hdata
    simp only [sampled,pins,hbefore,hafter,hsync]
    split_ifs with hfall hsample hsample
    · rw [hdata (by omega),show (j+1)/100 = j/100 by omega]
    · simp at hfall
      omega
    · simp at hfall
      omega
    · rfl
  · rw [if_neg (by omega)]
    simp [sampled,pins,hbefore,hlow]

theorem spiSync_step_of_not_inFlight (hf : Framed s) (h : inFlight s = false)
    (hr : i.resetN = true) : (step s i).spiSync = true := by
  cases hn : latched s i with
  | none => exact spiSync_of_not_inFlight (hf.step i) (not_inFlight_step h hr hn)
  | some w => exact (flightAt_of_latched hf hn).spiSync

theorem sampled_of_not_inFlight (hf : Framed s) (h : inFlight s = false) (hr : i.resetN = true) :
    sampled s i = none := by
  simp [sampled,pins,spiSync_step_of_not_inFlight hf h hr]

/-- A frame takes 2500 clocks from its latch. -/
theorem serves_latched : Serves step latched (fun i => i.resetN = true) Framed
    (fun s => inFlight s = true) FlightAt 2500 where
  keep h := h.step _
  starts hf hl := by
    refine ⟨?_,flightAt_of_latched hf hl⟩
    rw [inFlight,(latched_eq_some_iff.mp hl).2.2.1]
    exact Bool.false_ne_true
  next h hr hj := h.step hr (by omega)
  ends h hr hj := by
    obtain rfl : _ = 2499 := Nat.succ_injective hj
    rw [h.ends hr]
    exact Bool.false_ne_true
  busy h := h.flying
  rests _ hb hr hn := by
    rw [not_inFlight_step (Bool.eq_false_iff.mpr hb) hr hn]
    exact Bool.false_ne_true

section Runs
variable {s : State} {input : ℕ → Input} {m n : ℕ}

/-- A reset edge of the engine, after which `reset_n` stays high. The state
register has no start value, so a reset is what first brings it to IDLE. -/
structure ResetAt (s : State) (input : ℕ → Input) (m : ℕ) : Prop where
  rises : (run step s input m).div.rises = true
  low : (input m).resetN = false
  high : ∀ k, m < k → (input k).resetN = true

theorem ResetAt.restsAfter (h : ResetAt s input m) :
    RestsAfter step (fun i => i.resetN = true) Framed (fun s => inFlight s = true) s input m := by
  refine ⟨framed_of_reset h.rises h.low,?_,h.high⟩
  rw [run_succ,step_reset h.rises h.low]
  simp [inFlight]

theorem ResetAt.framed (h : ResetAt s input m) {k : ℕ} (hk : m < k) :
    Framed (run step s input k) :=
  inv_run serves_latched h.restsAfter hk

theorem ResetAt.flight (h : ResetAt s input m) (hn : m < n)
    (hl : latched (run step s input n) (input n) = some w) {j : ℕ} (hj : j < 2500) :
    FlightAt w j (run step s input (n+1+j)) :=
  at_run serves_latched h.restsAfter hn hl hj

theorem ResetAt.samples (h : ResetAt s input m) (hn : m < n)
    (hl : latched (run step s input n) (input n) = some w) {j : ℕ} (hj : j ≤ 2500) :
    emitted step s input sampled (n+1) j = bitsOf w ((j+50)/100 - 1) := by
  apply emitted_eq_map_range (c := w.getMsbD) (fun k => (k+50)/100 - 1) rfl
  intro k hk
  rw [(h.flight hn hl (show k < 2500 by omega)).sampled_eq (h.high (n+1+k) (by omega)) (by omega)]
  split_ifs with hmid
  · have hshown : (k+50)/100 - 1 = k/100 - 1 := by omega
    exact .inl ⟨by rw [hshown],by omega⟩
  · exact .inr ⟨rfl,by omega⟩

theorem ResetAt.frame (h : ResetAt s input m) (hn : m < n)
    (hl : latched (run step s input n) (input n) = some w) :
    Frame s input w n (n+100) (n+2500) := by
  have hsync : ∀ j < 2500, (run step s input (n+1+j)).spiSync = decide (j < 100) :=
    fun j hj => (h.flight hn hl hj).spiSync
  have hhigh : ∀ k, n ≤ k → k ≤ n+100 → (run step s input k).spiSync = true := by
    intro k hk hk'
    rcases Nat.eq_or_lt_of_le hk with rfl | hlt
    · apply spiSync_of_not_inFlight (h.framed hn)
      rw [inFlight,(latched_eq_some_iff.mp hl).2.2.1]
    · obtain ⟨j,rfl⟩ := Nat.exists_eq_add_of_le (Nat.succ_le_of_lt hlt)
      rw [hsync j (by omega)]
      exact decide_eq_true (by omega)
  refine ⟨hl,by omega,hhigh,⟨by omega,hhigh _ (by omega) le_rfl,?_,?_⟩,?_⟩
  · intro k hk hk'
    obtain ⟨j,rfl⟩ : ∃ j, k = n+1+j := ⟨k-n-1,by omega⟩
    rw [hsync j (by omega)]
    exact decide_eq_false (by omega)
  · have hend := rest_after serves_latched h.restsAfter hn hl (j := 2499) rfl
    have hlast : n+1+2499+1 = n+2500+1 := by omega
    rw [hlast] at hend
    exact spiSync_of_not_inFlight (h.framed (by omega)) (Bool.eq_false_iff.mpr hend)
  · have hlead := h.samples hn hl (show 99 ≤ 2500 by decide)
    have hall := h.samples hn hl (le_refl 2500)
    have hnil : bitsOf w ((99+50)/100 - 1) = [] := rfl
    have hstart : n+1+99 = n+100 := by omega
    have hlen : n+2500+1-(n+100) = 2401 := by omega
    have hsplit : (2500 : ℕ) = 99+2401 := by decide
    rw [hsplit,emitted_add,hlead,hnil,List.nil_append,hstart] at hall
    rw [hlen,hall]

theorem ResetAt.latch_of_sync_low (h : ResetAt s input m) {k : ℕ} (hk : m < k)
    (hsync : (run step s input k).spiSync = false) :
    ∃ w n j, m < n ∧ k = n+1+j ∧ 100 ≤ j ∧ j < 2500 ∧
      latched (run step s input n) (input n) = some w := by
  have hfl : inFlight (run step s input k) = true := by
    by_contra hno
    rw [spiSync_of_not_inFlight (h.framed hk) (Bool.not_eq_true _ ▸ hno)] at hsync
    contradiction
  rcases exists_start serves_latched h.restsAfter (by decide) hk hfl with ⟨w,n,j,hn,rfl,hj,hl⟩
  refine ⟨w,n,j,hn,rfl,?_,hj,hl⟩
  rw [(h.flight hn hl hj).spiSync] at hsync
  exact Nat.le_of_not_lt (of_decide_eq_false hsync)

theorem ResetAt.gap (h : ResetAt s input m) {b k : ℕ} (hb : m < b)
    (hlow : (run step s input b).spiSync = false)
    (hhigh : (run step s input (b+1)).spiSync = true) (hbk : b < k) (hk : k ≤ b+100) :
    (run step s input k).spiSync = true := by
  by_contra hsync
  rcases h.latch_of_sync_low hb hlow with ⟨w,n,j,hn,rfl,hj,hj',hl⟩
  rcases h.latch_of_sync_low (by omega) (Bool.eq_false_iff.mpr hsync) with
    ⟨w',n',j',hn',rfl,hj₁,hj₁',hl'⟩
  have hlast : j = 2499 := by
    by_contra hne
    have hnext := (h.flight hn hl (show j+1 < 2500 by omega)).spiSync
    rw [decide_eq_false (show ¬ j+1 < 100 by omega)] at hnext
    exact absurd (hhigh.symm.trans hnext) (by decide)
  -- the later frame was latched behind the earlier one
  have hlt : n < n' := by omega
  have hapart := start_apart serves_latched h.restsAfter hn hlt hl hl'
  omega

theorem ResetAt.frame_of_sampled (h : ResetAt s input m) {k : ℕ} {bit : Bool} (hk : m < k)
    (hbit : sampled (run step s input k) (input k) = some bit) :
    ∃ w n a b, m < n ∧ Frame s input w n a b ∧ a < k ∧ k < b := by
  have hfl : inFlight (run step s input k) = true := by
    by_contra hno
    rw [sampled_of_not_inFlight (h.framed hk) (Bool.not_eq_true _ ▸ hno) (h.high k hk)] at hbit
    contradiction
  rcases exists_start serves_latched h.restsAfter (by decide) hk hfl with ⟨w,n,j,hn,rfl,hj,hl⟩
  rw [(h.flight hn hl hj).sampled_eq (h.high _ hk) hj] at hbit
  split_ifs at hbit with hmid
  exact ⟨w,n,n+100,n+2500,hn,h.frame hn hl,by omega,by omega⟩

end Runs

/-- After a reset every latched word goes out as a frame of its 24 bits, most
significant first, whatever the inputs do; `spi_sync` is high for a period of
the SPI clock behind every frame, and what is sampled belongs to a frame. -/
theorem dac_frames (s : State) (input : ℕ → Input) (m : ℕ) (h : ResetAt s input m) :
    (∀ n w, m < n → latched (run step s input n) (input n) = some w →
      ∃ a b, Frame s input w n a b) ∧
    (∀ b, m < b → (run step s input b).spiSync = false →
      (run step s input (b+1)).spiSync = true →
        ∀ k, b < k → k ≤ b+100 → (run step s input k).spiSync = true) ∧
    ∀ k bit, m < k → sampled (run step s input k) (input k) = some bit →
      ∃ w n a b, m < n ∧ Frame s input w n a b ∧ a < k ∧ k < b :=
  ⟨fun n _ hn hl => ⟨n+100,n+2500,h.frame hn hl⟩,
    fun _ hb hlow hhigh _ hbk hk => h.gap hb hlow hhigh hbk hk,
    fun _ _ hk hbit => h.frame_of_sampled hk hbit⟩

/-- Reset up to the first rising edge of the divided clock, then a word is offered. -/
def resetThenLoad (k : ℕ) : Input := ⟨decide (49 < k),0xabcdef,true⟩

theorem dac_frames_after_reset : ∃ a b, Frame powerUp resetThenLoad 0xabcdef 149 a b := by
  have h : ResetAt powerUp resetThenLoad 49 :=
    ⟨by decide +kernel,rfl,fun k hk => decide_eq_true hk⟩
  exact (dac_frames powerUp resetThenLoad 49 h).1 149 0xabcdef (by decide) (by decide +kernel)

end FpgaTest.DacFrames
