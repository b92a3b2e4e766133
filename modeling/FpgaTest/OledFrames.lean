import FpgaTest.OledRestart
import FpgaTest.Transactions

/-!
# Bytes of the display serializer on its pins

The counterpart of the frames of the DAC for the engine of the display. A byte
takes 90 clocks from its latch, and the pins are functions of the number of
edges since then. `done_send` shows behind the byte for as long as `load_data`
is high at the falling edges of the divided clock.
-/
namespace FpgaTest.OledFrames
open ClockDivider ClockedMachine OledSpi OledPanel OledRestart SerialBits Transactions

/-- A byte is on its way: latched and not yet acknowledged. -/
def inFlight (s : State) : Bool :=
  match s.state with
  | .idle => false
  | .send => true
  | .done => !s.doneSend

/-- Bits put on the data pin so far. -/
def sent (s : State) : ℕ :=
  match s.state with
  | .idle => 0
  | .send => s.dataCount.toNat
  | .done => 8

/-- The outputs agree with the state. -/
structure Framed (s : State) : Prop where
  sound : Sound s
  ce : s.ce = (inFlight s && decide (0 < sent s))

/-- The engine `j` edges after it has latched `b`. -/
structure FlightAt (b : BitVec 8) (j : ℕ) (s : State) : Prop where
  framed : Framed s
  flying : inFlight s = true
  toFall : s.div.toFall = 10 - j % 10
  shown : sent s = j/10
  shiftReg : s.shiftReg = b <<< sent s
  spiData : 0 < sent s → s.spiData = b.getMsbD (sent s - 1)

/-- The byte latched at edge `n` goes out with eight rising edges of the clock,
the last of them at edge `e`; then the clock stays high up to the next latch. -/
structure ByteSent (s : State) (input : ℕ → Input) (b : BitVec 8) (n e : ℕ) : Prop where
  latch : latched (run step s input n) (input n) = some b
  lt : n < e
  samples : emitted step s input sampledBit (n+1) (e-n) = msbFirst b 8
  last : (sampledBit (run step s input e) (input e)).isSome
  quiet : ∀ k, e < k →
    (∀ n', n < n' → n' < k → latched (run step s input n') (input n') = none) →
      spiClock (run step s input k) = true

variable {s : State} {i : Input} {b : BitVec 8} {j : ℕ}

theorem Framed.doneSend_low (h : Framed s) (hs : s.state ≠ .done) : s.doneSend = false :=
  Bool.eq_false_iff.mpr fun hd => hs (h.sound hd)

theorem step_send (h : Framed s) (ht : s.div.falls = true) (hr : i.resetN = true)
    (hs : s.state = .send) :
    sent (step s i) = sent s + 1 ∧ inFlight (step s i) = true ∧ (step s i).ce = true ∧
      (step s i).spiData = s.shiftReg.msb ∧ (step s i).shiftReg = s.shiftReg <<< 1 := by
  have hd := h.doneSend_low (by simp [hs])
  by_cases hc : s.dataCount = 7
  · rw [step_last ht hr hs hc]
    exact ⟨by simp [sent,hs,hc],by simp [inFlight,hd],rfl,rfl,rfl⟩
  · have hlt : s.dataCount.toNat ≠ 7 := fun he => hc (BitVec.eq_of_toNat_eq he)
    have hbound := s.dataCount.isLt
    have hnext : (s.dataCount + 1).toNat = s.dataCount.toNat + 1 := by bv_omega
    rw [step_shift ht hr hs hc]
    exact ⟨by simp only [sent,hs,hnext],by simp [inFlight,hs],rfl,rfl,rfl⟩

theorem framed_of_reset (ht : s.div.falls = true) (hr : i.resetN = false) :
    Framed (step s i) := by
  rw [step_reset ht hr]
  constructor <;> simp [Sound,inFlight]

theorem Framed.step (h : Framed s) (i : Input) : Framed (step s i) := by
  refine ⟨h.sound.step,?_⟩
  cases ht : s.div.falls with
  | false =>
      rw [step_of_not_falls i ht]
      exact h.ce
  | true =>
      cases hr : i.resetN with
      | false => exact (framed_of_reset ht hr).ce
      | true =>
          cases hs : s.state with
          | idle =>
              have hce : s.ce = false := by rw [h.ce,inFlight,hs]; rfl
              cases hl : i.loadData with
              | false => rw [step_rest ht hr hs hl]; exact h.ce
              | true => rw [step_latch ht hr hs hl]; simp [sent,hce]
          | send =>
              obtain ⟨hsent,hfl,hce,-,-⟩ := step_send h ht hr hs (i := i)
              rw [hce,hfl,hsent]
              simp
          | done =>
              cases hl : i.loadData with
              | false => rw [step_release ht hr hs hl]; rfl
              | true => rw [step_acknowledge ht hr hs hl]; simp [inFlight,hs]

theorem flightAt_of_latched (hf : Framed s) (h : latched s i = some b) :
    FlightAt b 0 (OledSpi.step s i) := by
  have hframed := hf.step i
  obtain ⟨ht,hr,hs,hl,hb⟩ := latched_eq_some_iff.mp h
  have hfall := Divider.toFall_step_of_falls ht
  rw [step_latch ht hr hs hl] at hframed ⊢
  exact ⟨hframed,rfl,hfall,rfl,by simp [sent,hb],by simp [sent]⟩

/-- In flight a falling edge of the divided clock shows the next bit, or ends
the byte behind the last one. -/
theorem FlightAt.step (h : FlightAt b j s) (hr : i.resetN = true) (hj : j < 89) :
    FlightAt b (j+1) (OledSpi.step s i) := by
  have hfall := h.toFall
  have hsent := h.shown
  have hframed := h.framed.step i
  cases ht : s.div.falls with
  | false =>
      have hnext := Divider.toFall_step_of_not_falls ht
      have hne : s.div.toFall ≠ 1 := fun he => by simp [(Divider.falls_iff s.div).mpr he] at ht
      rw [step_of_not_falls i ht] at hframed ⊢
      refine ⟨hframed,h.flying,?_,?_,h.shiftReg,h.spiData⟩
      · change s.div.step.toFall = _
        omega
      · change sent s = _
        omega
  | true =>
      have hone := (Divider.falls_iff s.div).mp ht
      have hs : s.state = .send := by
        have hfl := h.flying
        cases hs : s.state with
        | idle => simp [inFlight,hs] at hfl
        | send => rfl
        | done =>
            have hall : sent s = 8 := by simp [sent,hs]
            omega
      obtain ⟨hsent',hfl',-,hdata,hshift⟩ := step_send h.framed ht hr hs (i := i)
      have hperiod := Divider.toFall_step_of_falls ht
      refine ⟨hframed,hfl',?_,by omega,?_,?_⟩
      · rw [step_div,hperiod]
        omega
      · rw [hshift,h.shiftReg,hsent',BitVec.shiftLeft_add]
      · intro _
        rw [hdata,h.shiftReg,BitVec.msb_shiftLeft,hsent',Nat.add_sub_cancel]

theorem FlightAt.done (h : FlightAt b j s) (hj : 80 ≤ j) : s.state = .done := by
  have hsent := h.shown
  have hfl := h.flying
  cases hs : s.state with
  | idle => simp [inFlight,hs] at hfl
  | send =>
      have hbound := s.dataCount.isLt
      simp only [sent,hs] at hsent
      omega
  | done => rfl

theorem not_inFlight_step_of_done (ht : s.div.falls = true) (hr : i.resetN = true)
    (hs : s.state = .done) : inFlight (OledSpi.step s i) = false := by
  cases hl : i.loadData with
  | false =>
      rw [step_release ht hr hs hl]
      rfl
  | true =>
      rw [step_acknowledge ht hr hs hl]
      simp [inFlight,hs]

theorem FlightAt.ends (h : FlightAt b 89 s) (hr : i.resetN = true) :
    inFlight (OledSpi.step s i) = false := by
  have hone := h.toFall
  have ht : s.div.falls = true := (Divider.falls_iff s.div).mpr (by omega)
  exact not_inFlight_step_of_done ht hr (h.done (by decide))

theorem not_inFlight_step (h : inFlight s = false) (hr : i.resetN = true)
    (hn : latched s i = none) : inFlight (OledSpi.step s i) = false := by
  cases ht : s.div.falls with
  | false =>
      rw [step_of_not_falls i ht]
      exact h
  | true =>
      cases hs : s.state with
      | idle =>
          have hl : i.loadData = false := by simpa [latched,ht,hr,hs] using hn
          rw [step_rest ht hr hs hl]
          exact h
      | send => simp [inFlight,hs] at h
      | done => exact not_inFlight_step_of_done ht hr hs

/-- A byte takes 90 clocks from its latch. -/
theorem serves_latched : Serves OledSpi.step latched (fun i => i.resetN = true) Framed
    (fun s => inFlight s = true) FlightAt 90 where
  keep h := h.step _
  starts hf hl := by
    refine ⟨?_,flightAt_of_latched hf hl⟩
    rw [inFlight,(latched_eq_some_iff.mp hl).2.2.1]
    exact Bool.false_ne_true
  next h hr hj := h.step hr (by omega)
  ends h hr hj := by
    obtain rfl : _ = 89 := Nat.succ_injective hj
    rw [h.ends hr]
    exact Bool.false_ne_true
  busy h := h.flying
  rests _ hb hr hn := by
    rw [not_inFlight_step (Bool.eq_false_iff.mpr hb) hr hn]
    exact Bool.false_ne_true

theorem FlightAt.spiClock (h : FlightAt b j s) :
    OledSpi.spiClock s = decide (j < 10 ∨ 5 ≤ j % 10) := by
  have hce := h.framed.ce
  rw [h.flying,Bool.true_and,h.shown] at hce
  rw [OledSpi.spiClock,hce,Divider.clock_eq_of_toFall,h.toFall]
  by_cases hj : 0 < j/10
  · rw [decide_eq_true hj,if_pos rfl,decide_eq_decide]
    omega
  · rw [decide_eq_false hj,if_neg Bool.false_ne_true]
    exact (decide_eq_true (by omega)).symm

theorem spiClock_of_not_inFlight (hf : Framed s) (h : inFlight s = false) :
    OledSpi.spiClock s = true := by
  have hce := hf.ce
  rw [h,Bool.false_and] at hce
  rw [OledSpi.spiClock,hce,if_neg Bool.false_ne_true]

/-- In the middle of each period behind the first, the bit shown is sampled. -/
theorem FlightAt.sampledBit_eq (h : FlightAt b j s) (hr : i.resetN = true) (hj : j < 90) :
    sampledBit s i = if j % 10 = 4 ∧ 10 ≤ j then some (b.getMsbD (j/10 - 1)) else none := by
  have hbefore := h.spiClock
  by_cases hhigh : j < 10 ∨ 5 ≤ j % 10
  · rw [if_neg (by omega)]
    simp [sampledBit,hbefore,hhigh]
  · -- the clock is high in the last half period, so another edge follows
    have hnext := h.step (i := i) hr (by omega)
    have hafter := hnext.spiClock
    have hdata := hnext.spiData
    rw [hnext.shown] at hdata
    simp only [sampledBit,hbefore,hafter]
    split_ifs with hrise hsample hsample
    · rw [hdata (by omega),show (j+1)/10 = j/10 by omega]
    · simp at hrise
      omega
    · simp at hrise
      omega
    · rfl

theorem spiData_of_clock_low (h : OledSpi.spiClock s = false) :
    (OledSpi.step s i).spiData = s.spiData := by
  have hclock : s.div.clock = false := by
    unfold OledSpi.spiClock at h
    split_ifs at h with hce
    exact h
  have ht : s.div.falls = false := by simp [Divider.falls,hclock]
  rw [step_of_not_falls i ht]

/-- At an engine edge `done_send` follows `load_data` in DONE and is low elsewhere. -/
theorem doneSend_step (hf : Framed s) (ht : s.div.falls = true) (hr : i.resetN = true) :
    (OledSpi.step s i).doneSend = (s.state == .done && i.loadData) := by
  cases hs : s.state with
  | idle =>
      have hd := hf.doneSend_low (by simp [hs])
      cases hl : i.loadData with
      | false => rw [step_rest ht hr hs hl]; exact hd
      | true => rw [step_latch ht hr hs hl]; exact hd
  | send =>
      have hd := hf.doneSend_low (by simp [hs])
      by_cases hc : s.dataCount = 7
      · rw [step_last ht hr hs hc]
        exact hd
      · rw [step_shift ht hr hs hc]
        exact hd
  | done =>
      cases hl : i.loadData with
      | false => rw [step_release ht hr hs hl]; rfl
      | true => rw [step_acknowledge ht hr hs hl]; rfl

section Runs
variable {s : State} {input : ℕ → Input} {m n k : ℕ}

/-- A reset edge of the engine, after which `reset_n` stays high. The state
register has no start value, so a reset is what first brings it to IDLE. -/
structure ResetAt (s : State) (input : ℕ → Input) (m : ℕ) : Prop where
  falls : (run step s input m).div.falls = true
  low : (input m).resetN = false
  high : ∀ k, m < k → (input k).resetN = true

theorem ResetAt.restsAfter (h : ResetAt s input m) :
    RestsAfter step (fun i => i.resetN = true) Framed (fun s => inFlight s = true) s input m := by
  refine ⟨framed_of_reset h.falls h.low,?_,h.high⟩
  rw [run_succ,step_reset h.falls h.low]
  simp [inFlight]

theorem ResetAt.framed (h : ResetAt s input m) (hk : m < k) : Framed (run step s input k) :=
  inv_run serves_latched h.restsAfter hk

theorem ResetAt.flight (h : ResetAt s input m) (hn : m < n)
    (hl : latched (run step s input n) (input n) = some b) (hj : j < 90) :
    FlightAt b j (run step s input (n+1+j)) :=
  at_run serves_latched h.restsAfter hn hl hj

theorem ResetAt.samples (h : ResetAt s input m) (hn : m < n)
    (hl : latched (run step s input n) (input n) = some b) (hj : j ≤ 90) :
    emitted step s input sampledBit (n+1) j = msbFirst b ((j+5)/10 - 1) := by
  apply emitted_eq_map_range (c := b.getMsbD) (fun k => (k+5)/10 - 1) rfl
  intro k hk
  rw [(h.flight hn hl (show k < 90 by omega)).sampledBit_eq (h.high (n+1+k) (by omega))
    (by omega)]
  split_ifs with hmid
  · have hshown : (k+5)/10 - 1 = k/10 - 1 := by omega
    exact .inl ⟨by rw [hshown],by omega⟩
  · exact .inr ⟨rfl,by omega⟩

theorem ResetAt.latch_of_clock_low (h : ResetAt s input m) (hk : m < k)
    (hlow : OledSpi.spiClock (run step s input k) = false) :
    ∃ b n j, m < n ∧ k = n+1+j ∧ 10 ≤ j ∧ j < 85 ∧
      latched (run step s input n) (input n) = some b := by
  have hfl : inFlight (run step s input k) = true := by
    by_contra hno
    rw [spiClock_of_not_inFlight (h.framed hk) (Bool.eq_false_iff.mpr hno)] at hlow
    contradiction
  rcases exists_start serves_latched h.restsAfter (by decide) hk hfl with ⟨b,n,j,hn,rfl,hj,hl⟩
  rw [(h.flight hn hl hj).spiClock,decide_eq_false_iff_not] at hlow
  exact ⟨b,n,j,hn,rfl,by omega,by omega,hl⟩

theorem ResetAt.byteSent (h : ResetAt s input m) (hn : m < n)
    (hl : latched (run step s input n) (input n) = some b) : ByteSent s input b n (n+85) := by
  refine ⟨hl,by omega,?_,?_,?_⟩
  · rw [Nat.add_sub_cancel_left]
    exact h.samples hn hl (by decide)
  · have hlast := (h.flight hn hl (show 84 < 90 by decide)).sampledBit_eq
      (h.high (n+1+84) (by omega)) (by decide)
    have hedge : n+1+84 = n+85 := by omega
    rw [hedge] at hlast
    rw [hlast]
    rfl
  · intro k hk hnone
    by_contra hlow
    rcases h.latch_of_clock_low (by omega) (Bool.eq_false_iff.mpr hlow) with
      ⟨b',n',j,hn',rfl,hj,hj',hl'⟩
    rcases Nat.lt_trichotomy n n' with hlt | rfl | hlt
    · rw [hnone n' hlt (by omega)] at hl'
      contradiction
    · omega
    · have hapart := start_apart serves_latched h.restsAfter hn' hlt hl' hl
      omega

theorem ResetAt.last_edge (h : ResetAt s input m) (hn : m < n)
    (hl : latched (run step s input n) (input n) = some b) (hj : j < 90) (hj' : 80 ≤ j)
    (ht : (run step s input (n+1+j)).div.falls = true) : j = 89 := by
  have hfall := (h.flight hn hl hj).toFall
  rw [(Divider.falls_iff _).mp ht] at hfall
  omega

/-- `done_send` shows behind a byte, as long as `load_data` is high at the edges
of the engine. -/
theorem ResetAt.doneSend (h : ResetAt s input m) (hk : m < k)
    (hd : (run step s input k).doneSend = true) :
    ∃ b n, m < n ∧ latched (run step s input n) (input n) = some b ∧ n+90 < k ∧
      ∀ t, n+85 < t → t < k → (run step s input t).div.falls = true →
        (input t).loadData = true := by
  induction k, Nat.succ_le_of_lt hk using Nat.le_induction with
  | base =>
      rw [run_succ,step_reset h.falls h.low] at hd
      contradiction
  | succ k hk' ih =>
      cases ht : (run step s input k).div.falls with
      | false =>
          rw [run_succ,step_of_not_falls (input k) ht] at hd
          rcases ih hk' hd with ⟨b,n,hn,hl,hlt,hload⟩
          refine ⟨b,n,hn,hl,by omega,?_⟩
          intro t hnt htk hfalls
          rcases Nat.eq_or_lt_of_le (Nat.le_of_lt_succ htk) with rfl | hbefore
          · rw [ht] at hfalls
            contradiction
          · exact hload t hnt hbefore hfalls
      | true =>
          rw [run_succ,doneSend_step (h.framed hk') ht (h.high k hk'),Bool.and_eq_true,
            beq_iff_eq] at hd
          rcases hd with ⟨hdone,hnow⟩
          cases hprev : (run step s input k).doneSend with
          | true =>
              rcases ih hk' hprev with ⟨b,n,hn,hl,hlt,hload⟩
              refine ⟨b,n,hn,hl,by omega,?_⟩
              intro t hnt htk hfalls
              rcases Nat.eq_or_lt_of_le (Nat.le_of_lt_succ htk) with rfl | hbefore
              · exact hnow
              · exact hload t hnt hbefore hfalls
          | false =>
              -- the edge that ends the byte
              have hfl : inFlight (run step s input k) = true := by
                rw [inFlight,hdone,hprev]
                rfl
              rcases exists_start serves_latched h.restsAfter (by decide) hk' hfl with
                ⟨b,n,j,hn,rfl,hj,hl⟩
              have hsent := (h.flight hn hl hj).shown
              simp only [sent,hdone] at hsent
              have hlast := h.last_edge hn hl hj (by omega) ht
              refine ⟨b,n,hn,hl,by omega,?_⟩
              intro t hnt htk hfalls
              obtain ⟨j',rfl⟩ : ∃ j', t = n+1+j' := ⟨t-n-1,by omega⟩
              obtain rfl := h.last_edge hn hl (by omega) (by omega) hfalls
              rw [hlast] at hnow
              exact hnow

end Runs

/-- After a reset every latched byte goes out with exactly eight rising edges of
the clock, most significant bit first, whatever the inputs do; the clock is high
outside the bytes, the data pin keeps its value while the clock is low and at
its rising edge, and `done_send` is high only behind the eighth rising edge and
until the engine has seen `load_data` low. -/
theorem oled_frames (s : State) (input : ℕ → Input) (m : ℕ) (h : ResetAt s input m) :
    (∀ n b, m < n → latched (run step s input n) (input n) = some b →
      ∃ e, ByteSent s input b n e) ∧
    (∀ k, m < k → spiClock (run step s input k) = false →
      (∃ b n e, m < n ∧ ByteSent s input b n e ∧ n < k ∧ k ≤ e) ∧
        (run step s input (k+1)).spiData = (run step s input k).spiData) ∧
    (∀ k, m < k → (run step s input k).doneSend = true →
      ∃ b n e, m < n ∧ ByteSent s input b n e ∧ e < k ∧
        ∀ t, e < t → t < k → (run step s input t).div.falls = true →
          (input t).loadData = true) ∧
    ∀ k, m < k → (run step s input k).div.falls = true → (input k).loadData = false →
      (run step s input (k+1)).doneSend = false := by
  refine ⟨fun n b hn hl => ⟨n+85,h.byteSent hn hl⟩,?_,?_,?_⟩
  · intro k hk hlow
    refine ⟨?_,spiData_of_clock_low hlow⟩
    rcases h.latch_of_clock_low hk hlow with ⟨b,n,j,hn,rfl,hj,hj',hl⟩
    exact ⟨b,n,n+85,hn,h.byteSent hn hl,by omega,by omega⟩
  · intro k hk hd
    rcases h.doneSend hk hd with ⟨b,n,hn,hl,hlt,hload⟩
    exact ⟨b,n,n+85,hn,h.byteSent hn hl,by omega,hload⟩
  · intro k hk ht hl
    rw [run_succ,doneSend_step (h.framed hk) ht (h.high k hk),hl,Bool.and_false]

/-- Registers without a reset, and inputs that reset up to the first falling edge
of the divided clock and then offer a byte. -/
def unreset : State := ⟨.initial 4,0,0,.idle,false,false,false⟩

def resetThenLoad (k : ℕ) : Input := ⟨decide (9 < k),0xa5,true⟩

theorem oled_frames_after_reset : ∃ e, ByteSent unreset resetThenLoad 0xa5 19 e := by
  have h : ResetAt unreset resetThenLoad 9 :=
    ⟨by decide +kernel,rfl,fun k hk => decide_eq_true hk⟩
  exact (oled_frames unreset resetThenLoad 9 h).1 19 0xa5 (by decide) (by decide +kernel)

end FpgaTest.OledFrames
