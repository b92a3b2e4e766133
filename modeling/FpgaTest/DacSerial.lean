import FpgaTest.DacSpi
import FpgaTest.SerialBits

/-!
# What the DAC receives

The DAC sees three pins. It drops its bits when SYNC falls, samples the data pin
at every falling edge of the SPI clock while SYNC is low, and accepts a word when
SYNC rises after exactly 24 samples. `Receiver` is this device; it observes the
pins before and after every edge of the base clock.

The engine's output registers follow its state (`Framed`), and as long as the
engine latches nothing new the receiver is owed, or already holds, the word that
was latched last (`Transmits`).
-/
namespace FpgaTest.DacSerial
open ClockDivider DacSpi SerialBits

structure Pins where
  spiClock : Bool
  spiData : Bool
  spiSync : Bool
  deriving DecidableEq, Repr

def pins (s : State) : Pins := ⟨spiClock s,s.spiData,s.spiSync⟩

/-- The samples of the frame under way and the words accepted so far. -/
structure Receiver where
  bits : List Bool
  words : List (BitVec 24)
  deriving DecidableEq, Repr

/-- The word given by 24 samples, the most significant first. -/
def wordOfBits (bits : List Bool) : BitVec 24 := (BitVec.ofBoolListBE bits).setWidth 24

def Receiver.step (r : Receiver) (before after : Pins) : Receiver :=
  if before.spiSync && !after.spiSync then { r with bits := [] }
  else if !before.spiSync && after.spiSync then
    ⟨[],if r.bits.length = 24 then r.words ++ [wordOfBits r.bits] else r.words⟩
  else if before.spiClock && !after.spiClock && !after.spiSync then
    { r with bits := r.bits ++ [after.spiData] }
  else r

/-- The first `k` bits of a word, the most significant first. -/
def bitsOf (w : BitVec 24) (k : ℕ) : List Bool := (List.range k).map w.getMsbD

theorem bitsOf_succ (w : BitVec 24) (k : ℕ) : bitsOf w (k+1) = bitsOf w k ++ [w.getMsbD k] :=
  msbFirst_succ w k

theorem length_bitsOf (w : BitVec 24) (k : ℕ) : (bitsOf w k).length = k :=
  length_msbFirst w k

theorem wordOfBits_bitsOf (w : BitVec 24) : wordOfBits (bitsOf w 24) = w :=
  ofBoolListBE_msbFirst w

/-- A word is on its way: latched and not yet closed by SYNC. -/
def inFlight (s : State) : Bool :=
  match s.state with
  | .idle => false
  | .send => true
  | .done => !s.spiDone

/-- Bits put on the data pin so far. -/
def sent (s : State) : ℕ :=
  match s.state with
  | .idle => 0
  | .send => s.dataCount.toNat
  | .done => 24

/-- The output registers agree with the state. -/
structure Framed (s : State) : Prop where
  spiDone : s.spiDone = true → s.state = .done
  count : s.state = .send → s.dataCount.toNat ≤ 23
  ce : s.ce = inFlight s
  sync : s.spiSync = !(inFlight s && decide (0 < sent s))

theorem Framed.spiDone_low {s : State} (h : Framed s) (hs : s.state ≠ .done) :
    s.spiDone = false := by
  cases hd : s.spiDone with
  | false => rfl
  | true => exact absurd (h.spiDone hd) hs

theorem framed_of_reset {s : State} {i : Input} (ht : s.div.rises = true)
    (hr : i.resetN = false) : Framed (step s i) := by
  rw [step_reset ht hr]
  constructor <;> simp [inFlight]

theorem step_send {s : State} {i : Input} (h : Framed s) (ht : s.div.rises = true)
    (hr : i.resetN = true) (hs : s.state = .send) :
    sent (step s i) = sent s + 1 ∧ inFlight (step s i) = true ∧ Framed (step s i) ∧
      (step s i).spiData = s.shiftReg.msb ∧ (step s i).shiftReg = s.shiftReg <<< 1 := by
  have hd := h.spiDone_low (by simp [hs])
  have hce : s.ce = true := by simpa [inFlight,hs] using h.ce
  by_cases hc : s.dataCount = 23
  · rw [step_last ht hr hs hc]
    refine ⟨by simp [sent,hs,hc],by simp [inFlight,hd],?_,rfl,rfl⟩
    constructor <;> simp [inFlight,sent,hd,hce]
  · have hcount := h.count hs
    have hlt : s.dataCount.toNat ≠ 23 := fun he => hc (BitVec.eq_of_toNat_eq he)
    have hnext : (s.dataCount + 1).toNat = s.dataCount.toNat + 1 := by
      bv_omega
    rw [step_shift ht hr hs hc]
    refine ⟨by simp only [sent,hs,hnext],by simp [inFlight,hs],?_,rfl,rfl⟩
    constructor
    · simp [hd]
    · intro _
      simp only [hnext]
      omega
    · simp [inFlight,hs,hce]
    · simp only [inFlight,sent,hs,hnext,Nat.succ_pos,decide_true,Bool.and_self,Bool.not_true]

theorem Framed.step {s : State} (h : Framed s) (i : Input) : Framed (step s i) := by
  cases ht : s.div.rises with
  | false =>
      rw [step_of_not_rises i ht]
      exact ⟨h.spiDone,h.count,h.ce,h.sync⟩
  | true =>
      cases hr : i.resetN with
      | false => exact framed_of_reset ht hr
      | true =>
          cases hs : s.state with
          | idle =>
              have hd := h.spiDone_low (by simp [hs])
              have hsync : s.spiSync = true := by simpa [inFlight,hs] using h.sync
              cases hl : i.spiLoad with
              | false =>
                  rw [step_rest ht hr hs hl]
                  exact ⟨h.spiDone,h.count,h.ce,h.sync⟩
              | true =>
                  rw [step_latch ht hr hs hl]
                  constructor <;> simp [inFlight,sent,hd,hsync]
          | send => exact (step_send h ht hr hs).2.2.1
          | done =>
              cases hl : i.spiLoad with
              | false =>
                  rw [step_release ht hr hs hl]
                  constructor <;> simp [inFlight]
              | true =>
                  rw [step_acknowledge ht hr hs hl]
                  constructor <;> simp [inFlight,hs]

theorem Receiver.step_of_sync_high (r : Receiver) {before after : Pins}
    (hb : before.spiSync = true) (ha : after.spiSync = true) : r.step before after = r := by
  simp [Receiver.step,hb,ha]

theorem Receiver.step_of_no_fall (r : Receiver) {before after : Pins}
    (hb : before.spiSync = false) (ha : after.spiSync = false)
    (hc : before.spiClock = true → after.spiClock = true) : r.step before after = r := by
  cases hclock : before.spiClock with
  | false => simp [Receiver.step,hb,ha,hclock]
  | true => simp [Receiver.step,hb,ha,hclock,hc hclock]

theorem Receiver.step_of_fall (r : Receiver) {before after : Pins}
    (hb : before.spiSync = false) (ha : after.spiSync = false) (hbc : before.spiClock = true)
    (hac : after.spiClock = false) :
    r.step before after = { r with bits := r.bits ++ [after.spiData] } := by
  simp [Receiver.step,hb,ha,hbc,hac]

theorem Receiver.step_of_sync_fall (r : Receiver) {before after : Pins}
    (hb : before.spiSync = true) (ha : after.spiSync = false) :
    r.step before after = { r with bits := [] } := by
  simp [Receiver.step,hb,ha]

theorem Receiver.step_of_sync_rise {r : Receiver} {before after : Pins} {w : BitVec 24}
    (hb : before.spiSync = false) (ha : after.spiSync = true) (hbits : r.bits = bitsOf w 24) :
    r.step before after = ⟨[],r.words ++ [w]⟩ := by
  simp [Receiver.step,hb,ha,hbits,length_bitsOf,wordOfBits_bitsOf]

/-- The last word latched by the engine is `w`: the receiver has sampled the bits
shown so far, or it has accepted the word. -/
structure Transmits (w : BitVec 24) (s : State) (r : Receiver) : Prop where
  shiftReg : inFlight s = true → s.shiftReg = w <<< sent s
  bits : inFlight s = true → 0 < sent s → s.spiData = w.getMsbD (sent s-1) ∧
    r.bits = bitsOf w (if s.div.clock then sent s-1 else sent s)
  accepted : inFlight s = false → r.words.getLast? = some w

variable {s : State} {i : Input} {r : Receiver} {w : BitVec 24}

theorem transmits_of_latched (h : latched s i = some w) :
    Transmits w (step s i) (r.step (pins s) (pins (step s i))) := by
  obtain ⟨ht,hr,hs,hl,hw⟩ := latched_eq_some_iff.mp h
  rw [step_latch ht hr hs hl]
  constructor <;> simp [inFlight,sent,hw]

theorem Framed.sync_low (hf : Framed s) (h : inFlight s = true) (hpos : 0 < sent s) :
    s.spiSync = false := by
  simpa [h,hpos] using hf.sync

theorem Framed.sync_high (hf : Framed s) (h : ¬ (inFlight s = true ∧ 0 < sent s)) :
    s.spiSync = true := by
  rw [hf.sync]
  by_cases hfl : inFlight s = true
  · have : ¬ 0 < sent s := fun hpos => h ⟨hfl,hpos⟩
    simp [this]
  · simp [hfl]

/-- Between two rising edges of the divided clock at most one sample is taken. -/
theorem Transmits.step_of_not_rises (h : Transmits w s r) (hf : Framed s)
    (ht : s.div.rises = false) : Transmits w (step s i) (r.step (pins s) (pins (step s i))) := by
  rw [DacSpi.step_of_not_rises i ht]
  by_cases hactive : inFlight s = true ∧ 0 < sent s
  · obtain ⟨hfl,hpos⟩ := hactive
    have hsync : (pins s).spiSync = false := hf.sync_low hfl hpos
    have hsync' : (pins { s with div := s.div.step }).spiSync = false := hsync
    have hce : s.ce = true := hf.ce.trans hfl
    obtain ⟨hdata,hbits⟩ := h.bits hfl hpos
    refine ⟨h.shiftReg,?_,fun hn => absurd (hfl.symm.trans hn) (by decide)⟩
    intro _ _
    refine ⟨hdata,?_⟩
    change (r.step (pins s) (pins { s with div := s.div.step })).bits =
      bitsOf w (if s.div.step.clock then sent s-1 else sent s)
    cases hclock : s.div.clock with
    | false =>
        have hlow := Divider.clock_step_of_not_rises ht hclock
        rw [Receiver.step_of_no_fall r hsync hsync' (by simp [pins,spiClock,hce,hclock]),hbits,
          hclock,hlow]
    | true =>
        cases hnext : s.div.step.clock with
        | true =>
            rw [Receiver.step_of_no_fall r hsync hsync' (by simp [pins,spiClock,hnext]),hbits,
              hclock]
        | false =>
            rw [Receiver.step_of_fall r hsync hsync' (by simp [pins,spiClock,hce,hclock])
              (by simp [pins,spiClock,hce,hnext])]
            simp only [pins,hbits,hdata,hclock,if_true,Bool.false_eq_true,if_false]
            rw [← bitsOf_succ,Nat.sub_add_cancel hpos]
  · have hsync : (pins s).spiSync = true := hf.sync_high hactive
    have hsync' : (pins { s with div := s.div.step }).spiSync = true := hsync
    rw [Receiver.step_of_sync_high r hsync hsync']
    exact ⟨h.shiftReg,fun hfl hpos => absurd ⟨hfl,hpos⟩ hactive,h.accepted⟩

/-- A shift while the clock rises: nothing is sampled. -/
theorem Transmits.step_of_send (h : Transmits w s r) (hf : Framed s) (ht : s.div.rises = true)
    (hr : i.resetN = true) (hs : s.state = .send) :
    Transmits w (step s i) (r.step (pins s) (pins (step s i))) := by
  have hfl : inFlight s = true := by simp [inFlight,hs]
  have hce : s.ce = true := hf.ce.trans hfl
  obtain ⟨hsent,hfl',hf',hdata,hshift⟩ := step_send hf ht hr hs
  obtain ⟨hclock,hclock'⟩ := Divider.clock_of_rises ht
  have hsync' : (pins (step s i)).spiSync = false := hf'.sync_low hfl' (by omega)
  refine ⟨?_,?_,fun hn => absurd (hfl'.symm.trans hn) (by decide)⟩
  · intro _
    rw [hshift,h.shiftReg hfl,hsent,BitVec.shiftLeft_add]
  · intro _ _
    rw [hsent,Nat.add_sub_cancel,hdata,h.shiftReg hfl,BitVec.msb_shiftLeft,step_div,hclock',
      if_pos rfl]
    refine ⟨rfl,?_⟩
    rcases Nat.eq_zero_or_pos (sent s) with h0 | hpos
    · have hsync : (pins s).spiSync = true := hf.sync_high (by omega)
      rw [Receiver.step_of_sync_fall r hsync hsync',h0]
      rfl
    · have hsync : (pins s).spiSync = false := hf.sync_low hfl hpos
      rw [Receiver.step_of_no_fall r hsync hsync' (by simp [pins,spiClock,hce,hclock]),
        (h.bits hfl hpos).2,hclock]
      rfl

/-- The rising SYNC closes the frame after 24 samples. -/
theorem Transmits.step_of_done (h : Transmits w s r) (hf : Framed s) (ht : s.div.rises = true)
    (hr : i.resetN = true) (hs : s.state = .done) :
    Transmits w (step s i) (r.step (pins s) (pins (step s i))) := by
  have hafter : inFlight (step s i) = false ∧ (pins (step s i)).spiSync = true := by
    cases hl : i.spiLoad with
    | false => rw [step_release ht hr hs hl]; exact ⟨rfl,rfl⟩
    | true => rw [step_acknowledge ht hr hs hl]; simp [inFlight,hs,pins]
  obtain ⟨hfl',hsync'⟩ := hafter
  refine ⟨fun hn => absurd (hfl'.symm.trans hn) (by decide),
    fun hn => absurd (hfl'.symm.trans hn) (by decide),fun _ => ?_⟩
  cases hd : s.spiDone with
  | false =>
      have hfl : inFlight s = true := by simp [inFlight,hs,hd]
      have hsent : sent s = 24 := by simp [sent,hs]
      have hsync : (pins s).spiSync = false := hf.sync_low hfl (by omega)
      have hbits : r.bits = bitsOf w 24 := by
        rw [(h.bits hfl (by omega)).2,(Divider.clock_of_rises ht).1,hsent]
        rfl
      rw [Receiver.step_of_sync_rise hsync hsync' hbits]
      simp
  | true =>
      have hfl : inFlight s = false := by simp [inFlight,hs,hd]
      have hsync : (pins s).spiSync = true := hf.sync_high (by simp [hfl])
      rw [Receiver.step_of_sync_high r hsync hsync']
      exact h.accepted hfl

theorem Transmits.step (h : Transmits w s r) (hf : Framed s) (hr : i.resetN = true)
    (hn : latched s i = none) : Transmits w (step s i) (r.step (pins s) (pins (step s i))) := by
  cases ht : s.div.rises with
  | false => exact h.step_of_not_rises hf ht
  | true =>
      cases hs : s.state with
      | idle =>
          have hl : i.spiLoad = false := by simpa [latched,ht,hr,hs] using hn
          have hsync : (pins s).spiSync = true := hf.sync_high (by simp [inFlight,hs])
          have hsync' : (pins { s with div := s.div.step }).spiSync = true := hsync
          rw [step_rest ht hr hs hl,Receiver.step_of_sync_high r hsync hsync']
          constructor
          · simp [inFlight,hs]
          · simp [inFlight,hs]
          · simpa [inFlight,hs] using h.accepted
      | send => exact h.step_of_send hf ht hr hs
      | done => exact h.step_of_done hf ht hr hs

end FpgaTest.DacSerial
