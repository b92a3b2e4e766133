import FpgaTest.BlockFraming
import FpgaTest.OledStages
import FpgaTest.SerialBits

/-!
# What the display receives

The panel samples the data pin and the data/command line at every rising edge of
the SPI clock and makes a byte of eight samples. `pending` are the bits that the
engine has latched and the panel has not sampled yet; an edge of the base clock
moves at most one of them to the samples. The data/command line does not change
as long as bits are pending.
-/
namespace FpgaTest.OledPanel
open ClockDivider OledControl OledProgram OledStages BlockFraming SerialBits

section Engine
variable {s : OledSpi.State} {i : OledSpi.Input}

/-- The bit on the data pin at a rising edge of the SPI clock. -/
def sampledBit (s : OledSpi.State) (i : OledSpi.Input) : Option Bool :=
  if !OledSpi.spiClock s && OledSpi.spiClock (OledSpi.step s i) then
    some (OledSpi.step s i).spiData
  else none

/-- The bit on the pin before its rising edge. -/
def shown (s : OledSpi.State) : List Bool := if s.ce && !s.div.clock then [s.spiData] else []

/-- The bits still in the shift register. -/
def unshifted (s : OledSpi.State) : List Bool :=
  match s.state with
  | .send => msbFirst s.shiftReg (8-s.dataCount.toNat)
  | _ => []

def pending (s : OledSpi.State) : List Bool := shown s ++ unshifted s

theorem unshifted_step (ht : s.div.falls = true) (hr : i.resetN = true) (hs : s.state = .send) :
    unshifted s = (OledSpi.step s i).spiData :: unshifted (OledSpi.step s i) := by
  by_cases hc : s.dataCount = 7
  · have hone : 8-s.dataCount.toNat = 0+1 := by rw [hc]; rfl
    rw [OledSpi.step_last ht hr hs hc]
    simp only [unshifted,hs]
    rw [hone,msbFirst_shift]
    rfl
  · have hlt : s.dataCount.toNat ≠ 7 := fun h => hc (BitVec.eq_of_toNat_eq h)
    have hbound := s.dataCount.isLt
    have hnext : (s.dataCount+1).toNat = s.dataCount.toNat+1 := by bv_omega
    have hlen : 8-s.dataCount.toNat = 8-(s.dataCount+1).toNat+1 := by omega
    rw [OledSpi.step_shift ht hr hs hc]
    simp only [unshifted,hs]
    rw [hlen,msbFirst_shift]

/-- The clock output is enabled for a byte only. -/
def ClockGated (s : OledSpi.State) : Prop := s.ce = true → s.state ≠ .idle ∧ s.doneSend = false

theorem ClockGated.low (h : ClockGated s) (hs : s.state = .idle) : s.ce = false := by
  cases hce : s.ce with
  | false => rfl
  | true => exact absurd hs (h hce).1

theorem ClockGated.step (h : ClockGated s) (hb : s.doneSend = true → s.state = .done)
    (hr : i.resetN = true) : ClockGated (OledSpi.step s i) := by
  cases ht : s.div.falls with
  | false =>
      rw [OledSpi.step_of_not_falls i ht]
      exact h
  | true =>
      cases hs : s.state with
      | idle =>
          have hce := h.low hs
          cases hl : i.loadData with
          | false =>
              rw [OledSpi.step_rest ht hr hs hl]
              exact h
          | true =>
              rw [OledSpi.step_latch ht hr hs hl]
              intro hce'
              rw [hce] at hce'
              contradiction
      | send =>
          have hd : s.doneSend = false := by
            cases hd : s.doneSend with
            | false => rfl
            | true => rw [hs] at hb; simpa using hb hd
          by_cases hc : s.dataCount = 7
          · rw [OledSpi.step_last ht hr hs hc]
            exact fun _ => ⟨by simp,hd⟩
          · rw [OledSpi.step_shift ht hr hs hc]
            exact fun _ => ⟨by simp [hs],hd⟩
      | done =>
          cases hl : i.loadData with
          | false =>
              rw [OledSpi.step_release ht hr hs hl]
              intro hce'
              contradiction
          | true =>
              rw [OledSpi.step_acknowledge ht hr hs hl]
              intro hce'
              contradiction

theorem pending_step_of_not_falls (ht : s.div.falls = false) :
    (sampledBit s i).toList ++ pending (OledSpi.step s i) = pending s := by
  have hstep := OledSpi.step_of_not_falls i ht
  have hun : unshifted (OledSpi.step s i) = unshifted s := by rw [hstep]; rfl
  have hbit : (sampledBit s i).toList ++ shown (OledSpi.step s i) = shown s := by
    simp only [sampledBit,OledSpi.spiClock,shown,hstep]
    cases hce : s.ce with
    | false => simp
    | true =>
        cases hclock : s.div.clock with
        | true => simp [Divider.clock_step_of_not_falls ht hclock]
        | false => cases hnext : s.div.step.clock <;> simp
  rw [pending,pending,hun,← List.append_assoc,hbit]

/-- At a falling edge nothing is sampled, and the next bit is shown. -/
theorem pending_step_of_falls (h : ClockGated s) (ht : s.div.falls = true)
    (hr : i.resetN = true) :
    (sampledBit s i).toList ++ pending (OledSpi.step s i) =
      pending s ++ (OledSpi.latched s i).toList.flatMap (msbFirst · 8) := by
  obtain ⟨hclock,hclock'⟩ := Divider.clock_of_falls ht
  have hnone : sampledBit s i = none := by
    simp [sampledBit,OledSpi.spiClock,hclock]
  have hshown : shown s = [] := by simp [shown,hclock]
  rw [hnone,pending,pending,hshown,Option.toList_none,List.nil_append,List.nil_append]
  cases hs : s.state with
  | idle =>
      have hce := h.low hs
      cases hl : i.loadData with
      | false => simp [OledSpi.step_rest ht hr hs hl,shown,unshifted,hs,hce,OledSpi.latched,hl]
      | true =>
          simp [OledSpi.step_latch ht hr hs hl,shown,unshifted,hs,hce,OledSpi.latched,hl,ht,hr]
  | send =>
      have hlatch : OledSpi.latched s i = none := OledSpi.latched_of_not_idle i (by rw [hs]; decide)
      have hce' : (OledSpi.step s i).ce = true := by
        by_cases hc : s.dataCount = 7
        · rw [OledSpi.step_last ht hr hs hc]
        · rw [OledSpi.step_shift ht hr hs hc]
      have hshown' : shown (OledSpi.step s i) = [(OledSpi.step s i).spiData] := by
        simp [shown,hce',hclock']
      rw [hlatch,hshown',unshifted_step ht hr hs]
      simp
  | done =>
      have hlatch : OledSpi.latched s i = none := OledSpi.latched_of_not_idle i (by rw [hs]; decide)
      cases hl : i.loadData with
      | false => simp [OledSpi.step_release ht hr hs hl,shown,unshifted,hs,hlatch]
      | true => simp [OledSpi.step_acknowledge ht hr hs hl,shown,unshifted,hs,hlatch]

/-- What is sampled or pending grows by the bits of the bytes latched. -/
theorem pending_step (h : ClockGated s) (hr : i.resetN = true) :
    (sampledBit s i).toList ++ pending (OledSpi.step s i) =
      pending s ++ (OledSpi.latched s i).toList.flatMap (msbFirst · 8) := by
  cases ht : s.div.falls with
  | true => exact pending_step_of_falls h ht hr
  | false =>
      rw [OledSpi.latched_of_not_falls i ht,pending_step_of_not_falls ht]
      simp

theorem pending_eq_nil (h : ClockGated s) (hs : s.state = .idle ∨ s.doneSend = true)
    (hb : s.doneSend = true → s.state = .done) : pending s = [] := by
  have hce : s.ce = false := by
    cases hce : s.ce with
    | false => rfl
    | true =>
        obtain ⟨hne,hd⟩ := h hce
        rcases hs with hs | hs
        · exact absurd hs hne
        · rw [hd] at hs
          contradiction
  have hne : s.state ≠ .send := by
    rcases hs with hs | hs
    · rw [hs]; decide
    · rw [hb hs]; decide
  have hun : unshifted s = [] := by
    unfold unshifted
    split
    · contradiction
    · rfl
  simp [pending,shown,hce,hun]

theorem length_pending_le (s : OledSpi.State) : (pending s).length ≤ 9 := by
  have hshown : (shown s).length ≤ 1 := by unfold shown; split <;> simp
  have hun : (unshifted s).length ≤ 8 := by
    unfold unshifted
    split
    · simp
    · simp
  rw [pending,List.length_append]
  omega

end Engine

variable {s : State} {i : Input}

/-- What the panel samples at an edge: the data/command line and a bit. -/
def sample (s : State) (i : Input) : Option (Bool × Bool) :=
  (sampledBit s.spi (spiInput s i)).map fun b => ((nextCtrl s i).oledDcN,b)

/-- The samples that make up a byte. -/
def wire (x : Transfer) : List (Bool × Bool) := (msbFirst x.2 8).map fun b => (x.1,b)

/-- The samples still to come. -/
def unsampled (s : State) : List (Bool × Bool) :=
  (pending s.spi).map fun b => (s.ctrl.oledDcN,b)

theorem length_unsampled_le (s : State) : (unsampled s).length ≤ 9 := by
  rw [unsampled,List.length_map]
  exact length_pending_le _

theorem doneSend_of_settled {t : OledSpi.State} (h : OledSpi.Settled t) :
    t.doneSend = true → t.state = .done := by
  rcases h with h | h
  · exact fun _ => h.state
  · simp [h.doneSend]

theorem doneSend_of_phase (h : Phase s) : s.spi.doneSend = true → s.spi.state = .done := by
  cases h with
  | serving _ hb => exact hb.doneSend
  | passing _ _ hf | offering _ hf | ready _ _ hf => simp [hf.doneSend]
  | delaying _ _ _ hf =>
      rcases hf with hf | hp
      · simp [hf.doneSend]
      · exact fun _ => hp.spi.state
  | waiting _ _ _ hset => exact doneSend_of_settled hset

/-- The data/command line keeps its value until the last bit is sampled. -/
theorem oledDcN_step (h : Stage s) (hg : ClockGated s.spi) (hr : i.reset = false)
    (hp : pending s.spi ≠ []) : (nextCtrl s i).oledDcN = s.ctrl.oledDcN := by
  have hdone := doneSend_of_phase h.phase
  have hbusy : s.spi.state ≠ .idle := fun hs => hp (pending_eq_nil hg (.inl hs) hdone)
  have hd : s.spi.doneSend = false := by
    cases hd : s.spi.doneSend with
    | false => rfl
    | true => exact absurd (pending_eq_nil hg (.inr hd) hdone) hp
  cases h.phase with
  | passing _ _ hf | offering _ hf | ready _ _ hf => exact absurd hf.state hbusy
  | delaying _ _ _ hf =>
      rcases hf with hf | hpart
      · exact absurd hf.state hbusy
      · rw [hpart.spi.doneSend] at hd
        contradiction
  | waiting _ _ _ hset => exact absurd (hset.free hd).state hbusy
  | serving ho hb hnext hdc =>
      rw [nextCtrl_offered hr ho hd,hdc]
      exact commandLine_eq h.command ho

theorem unsampled_step (h : Stage s) (hg : ClockGated s.spi) (hr : i.reset = false) :
    (sample s i).toList ++ unsampled (step s i) =
      unsampled s ++ (latched s i).toList.flatMap wire := by
  have hdc : unsampled s = (pending s.spi).map fun b => ((nextCtrl s i).oledDcN,b) := by
    by_cases hp : pending s.spi = []
    · simp [unsampled,hp]
    · rw [oledDcN_step h hg hr hp]
      rfl
  have hpend := congrArg (List.map fun b => ((nextCtrl s i).oledDcN,b))
    (pending_step (i := spiInput s i) hg (Input.resetN_of_not_reset hr))
  rw [List.map_append,List.map_append,← hdc] at hpend
  have hsample : (sample s i).toList =
      (sampledBit s.spi (spiInput s i)).toList.map fun b => ((nextCtrl s i).oledDcN,b) := by
    cases hb : sampledBit s.spi (spiInput s i) <;> simp [sample,hb]
  have hlatch : (latched s i).toList.flatMap wire =
      ((OledSpi.latched s.spi (spiInput s i)).toList.flatMap (msbFirst · 8)).map
        fun b => ((nextCtrl s i).oledDcN,b) := by
    cases hb : OledSpi.latched s.spi (spiInput s i) <;> simp [latched,hb,wire]
  rw [hsample,hlatch]
  exact hpend

/-- Eight samples read as a byte, with the data/command line at each of them. -/
def reading (samples : List (Bool × Bool)) : List Bool × BitVec 8 :=
  (samples.map Prod.fst,(BitVec.ofBoolListBE (samples.map Prod.snd)).setWidth 8)

def received (samples : List (Bool × Bool)) : List (List Bool × BitVec 8) :=
  (blocks 8 samples).map reading

/-- A transfer during which the data/command line does not change. -/
def steady (x : Transfer) : List Bool × BitVec 8 := (List.replicate 8 x.1,x.2)

theorem length_wire (x : Transfer) : (wire x).length = 8 := by
  simp [wire]

theorem reading_wire (x : Transfer) : reading (wire x) = steady x := by
  have hfst : (wire x).map Prod.fst = List.replicate 8 x.1 := by
    refine List.eq_replicate_iff.mpr ⟨by rw [List.length_map,length_wire],?_⟩
    simp [wire]
  have hsnd : (wire x).map Prod.snd = msbFirst x.2 8 := by
    simp [wire]
  rw [reading,hfst,hsnd,ofBoolListBE_msbFirst,steady]

theorem received_wire (xs : List Transfer) : received (xs.flatMap wire) = xs.map steady := by
  induction xs with
  | nil => rfl
  | cons x xs ih =>
      have hle : 8 ≤ (wire x ++ xs.flatMap wire).length := by
        rw [List.length_append,length_wire]
        omega
      rw [received,List.flatMap_cons,blocks_of_le (by decide) hle,
        List.take_left' (length_wire x),List.drop_left' (length_wire x),List.map_cons,
        reading_wire,List.map_cons]
      exact congrArg (steady x :: ·) ih

theorem received_of_samples {samples rest : List (Bool × Bool)} {xs : List Transfer}
    (h : samples ++ rest = xs.flatMap wire) : received samples <+: xs.map steady := by
  rw [← received_wire,← h,received,received,blocks_append (by decide),List.map_append]
  exact List.prefix_append _ _

theorem length_received {samples rest : List (Bool × Bool)} {xs : List Transfer}
    (h : samples ++ rest = xs.flatMap wire) (hrest : rest.length ≤ 9) :
    xs.length ≤ (received samples).length + 2 := by
  have hlength := congrArg List.length h
  simp only [List.length_append,List.length_flatMap,length_wire,List.map_const',
    List.sum_replicate,smul_eq_mul] at hlength
  simp only [received,blocks,List.length_map,List.length_range]
  omega

end FpgaTest.OledPanel
