import FpgaTest.PulseCounter
import FpgaTest.WrappingCounter

/-!
# How long the trigger gate stays open

With both registers held, a gate that opens has just finished counting to
TRIGGER_DLY. The width phase goes on from that value, so it needs
`TRIGGER_WIDTH - TRIGGER_DLY` further counts, modulo the 32-bit wrap, and one
edge to close. The length is the one TRIGGER_WIDTH asks for only when the
delay is zero.
-/
namespace FpgaTest.TriggerGate
open ClockedMachine PulseCounter WrappingCounter

/-- `isTrigger` before each edge. -/
def gateTrace (s : State) (input : ℕ → Input) (n : ℕ) : Bool :=
  (run step s input n).gate.isTrigger

/-- The signal is high in the `len` cycles from `n` and low in the next one. -/
def HighFor (f : ℕ → Bool) (n len : ℕ) : Prop :=
  (∀ k < len, f (n+k) = true) ∧ f (n+len) = false

theorem HighFor.unique {f : ℕ → Bool} {n a b : ℕ} (ha : HighFor f n a) (hb : HighFor f n b) :
    a = b := by
  rcases Nat.lt_trichotomy a b with h | h | h
  · have := hb.1 a h
    rw [ha.2] at this
    contradiction
  · exact h
  · have := ha.1 b h
    rw [hb.2] at this
    contradiction

theorem HighFor.cons {f : ℕ → Bool} {n len : ℕ} (hn : f n = true) (h : HighFor f (n+1) len) :
    HighFor f n (len+1) := by
  refine ⟨?_,by simpa only [Nat.add_assoc,Nat.add_comm 1] using h.2⟩
  intro k hk
  cases k with
  | zero => exact hn
  | succ k => simpa only [Nat.add_assoc,Nat.add_comm 1] using h.1 k (by omega)

/-- No reset, and both gate registers hold the given values at every edge. -/
structure Steady (input : ℕ → Input) (dly width : BitVec 32) : Prop where
  noReset : ∀ k, (input k).reset = false
  triggerDly : ∀ k, (input k).triggerDly = dly
  triggerWidth : ∀ k, (input k).triggerWidth = width

variable {s : State} {input : ℕ → Input} {dly width : BitVec 32}

/-- From the width phase on, the gate closes after the remaining counts. -/
theorem width_phase (h : Steady input dly width) (m n : ℕ)
    (ht : (run step s input n).gate.tstate = .width)
    (hg : (run step s input n).gate.isTrigger = true)
    (hm : remaining width (run step s input n).gate.triggerCount = m) :
    HighFor (gateTrace s input) n (m+1) := by
  induction m generalizing n with
  | zero =>
      have hc : (run step s input n).gate.triggerCount = (input n).triggerWidth := by
        rw [h.triggerWidth]
        exact remaining_eq_zero_iff.mp hm
      have hnext := gate_width_closes (r := (run step s input n).sampler.triggerRise)
        (h.noReset n) ht hc
      refine HighFor.cons hg ⟨fun k hk => absurd hk (Nat.not_lt_zero k),?_⟩
      rw [Nat.add_zero,gateTrace,run_succ,step_gate,hnext]
  | succ m ih =>
      have hc : (run step s input n).gate.triggerCount ≠ (input n).triggerWidth := by
        intro he
        rw [remaining_eq_zero_iff.mpr (he.trans (h.triggerWidth n))] at hm
        contradiction
      have hnext := gate_width_counts (r := (run step s input n).sampler.triggerRise)
        (h.noReset n) ht hc
      rw [h.triggerWidth] at hc
      have hrest := remaining_succ hc
      apply HighFor.cons hg
      apply ih (n+1) <;> rw [run_succ,step_gate,hnext]
      · exact ht
      · exact hg
      · simp only
        omega

/-- The length of every gate, whatever the state the trace starts in. -/
theorem gate_length (h : Steady input dly width) {n : ℕ}
    (hlow : gateTrace s input n = false) (hhigh : gateTrace s input (n+1) = true) :
    HighFor (gateTrace s input) (n+1) (remaining width dly + 1) := by
  obtain ⟨ht,hc⟩ := gate_opens hlow hhigh
  apply width_phase (s := s) h _ (n+1) ht hhigh
  rw [run_succ,step_gate,hc,h.triggerDly]

theorem remaining_eq_toNat_iff (a b : BitVec 32) : remaining a b = a.toNat ↔ b = 0 := by
  unfold remaining
  constructor
  · intro h
    bv_omega
  · rintro rfl
    simp

/-- A gate has the length that TRIGGER_WIDTH alone prescribes if and only if
the trigger delay is zero. -/
theorem gate_length_eq_width_iff (s : State) (input : ℕ → Input) (dly width : BitVec 32)
    (h : Steady input dly width) (n : ℕ)
    (hlow : gateTrace s input n = false) (hhigh : gateTrace s input (n+1) = true) :
    HighFor (gateTrace s input) (n+1) (width.toNat + 1) ↔ dly = 0 := by
  have hlen := gate_length h hlow hhigh
  constructor
  · intro hw
    have he := hlen.unique hw
    exact (remaining_eq_toNat_iff width dly).mp (by omega)
  · rintro rfl
    simpa [remaining] using hlen

/-- TRIGGER_SIG rises before the first edge and stays high. -/
def heldTrigger (dly width : BitVec 32) (_ : ℕ) : Input :=
  ⟨true,false,false,true,dly,width,0⟩

theorem steady_heldTrigger (dly width : BitVec 32) : Steady (heldTrigger dly width) dly width :=
  ⟨fun _ => rfl,fun _ => rfl,fun _ => rfl⟩

/-- Delay zero and width two: the gate opens at the fourth edge for three cycles. -/
theorem gate_length_eq_width_zero_delay :
    gateTrace powerUp (heldTrigger 0 2) 2 = false ∧
      gateTrace powerUp (heldTrigger 0 2) 3 = true ∧
      (HighFor (gateTrace powerUp (heldTrigger 0 2)) 3 ((2 : BitVec 32).toNat + 1) ↔
        (0 : BitVec 32) = 0) :=
  ⟨by decide,by decide,gate_length_eq_width_iff powerUp (heldTrigger 0 2) 0 2
    (steady_heldTrigger 0 2) 2 (by decide) (by decide)⟩

/-- Delay one and width one: the gate is high for a single cycle instead of two. -/
theorem gate_length_delay_one :
    Steady (heldTrigger 1 1) 1 1 ∧
      gateTrace powerUp (heldTrigger 1 1) 3 = false ∧
      gateTrace powerUp (heldTrigger 1 1) 4 = true ∧
      gateTrace powerUp (heldTrigger 1 1) 5 = false ∧
      ¬ HighFor (gateTrace powerUp (heldTrigger 1 1)) 4 ((1 : BitVec 32).toNat + 1) := by
  refine ⟨steady_heldTrigger 1 1,by decide,by decide,by decide,?_⟩
  intro h
  have h5 : gateTrace powerUp (heldTrigger 1 1) 5 = true := h.1 1 (by decide)
  exact absurd h5 (by decide)

end FpgaTest.TriggerGate
