import FpgaTest.PulseCounter
import Mathlib.Order.Interval.Finset.Nat

/-!
# The pulse count against the external waveform

The specification is a count of clock edges and mentions the registers only
through the gate `isTrigger`. Edges are numbered from zero. `countSample k` is
the value of COUNT_SIG taken at edge `k-1`, zero when that edge was under
reset; index zero stands for the sample already held when the trace begins.

The samplers are not cleared by CONFIG_REG[0], so an edge that straddles a
clear is still seen. The induction is over the edges since the last cleared
one; the samplers need no invariant beyond their two-edge history.
-/
namespace FpgaTest.PulseTally
open ClockedMachine PulseCounter

def countSample (s : State) (input : ℕ → Input) : ℕ → Bool
  | 0 => s.sampler.countState
  | k+1 => if (input k).reset then false else (input k).countSig

/-- Gate condition at edge `i`: free-running, or the trigger gate is open. -/
def admitted (s : State) (input : ℕ → Input) (i : ℕ) : Bool :=
  !(input i).triggerMode || (run step s input i).gate.isTrigger

/-- Edge `i` counts: a sampled rise one edge earlier, admitted at `i`. -/
def counted (s : State) (input : ℕ → Input) (i : ℕ) : Bool :=
  countSample s input i && !countSample s input (i-1) && admitted s input i

variable {s : State} {input : ℕ → Input}

theorem countState_eq (n : ℕ) :
    (run step s input n).sampler.countState = countSample s input n := by
  cases n with
  | zero => rfl
  | succ n =>
      rw [run_succ,step_sampler]
      simp only [Sampler.step,countSample]
      split_ifs <;> rfl

theorem countRise_eq (n : ℕ) :
    (run step s input (n+1)).sampler.countRise =
      (countSample s input (n+1) && !countSample s input n) := by
  have hcur : (run step s input n).sampler.countState = countSample s input n := countState_eq n
  rw [run_succ,step_sampler]
  unfold Sampler.countRise Sampler.step
  cases hr : (input n).reset with
  | true => simp [countSample,hr]
  | false => simp [countSample,hr,hcur]

/-- One uncleared edge adds one exactly when the edge counts. -/
theorem pulseCount_succ {n : ℕ} (hn : 0 < n) (h : ((input n).reset || (input n).clear) = false) :
    (run step s input (n+1)).pulseCount =
      (run step s input n).pulseCount + BitVec.ofNat 32 (counted s input n).toNat := by
  obtain ⟨k,rfl⟩ : ∃ k, n = k+1 := ⟨n-1,by omega⟩
  rw [run_succ,step_pulseCount,pulseCountStep_eq _ _ h,countRise_eq]
  rfl

/-- The edges of the interval `(r, n]` that count. -/
def countedEdges (s : State) (input : ℕ → Input) (r n : ℕ) : Finset ℕ :=
  (Finset.Ioc r n).filter fun i => counted s input i = true

theorem countedEdges_succ {r n : ℕ} (h : r ≤ n) :
    (countedEdges s input r (n+1)).card =
      (countedEdges s input r n).card + (counted s input (n+1)).toNat := by
  have hio : Finset.Ioc r (n+1) = insert (n+1) (Finset.Ioc r n) := by
    ext i
    simp only [Finset.mem_Ioc,Finset.mem_insert]
    omega
  unfold countedEdges
  rw [hio,Finset.filter_insert]
  cases hc : counted s input (n+1) with
  | true => simp
  | false => simp

theorem pulseCount_eq_card {r n : ℕ} (hrn : r ≤ n)
    (hr : ((input r).reset || (input r).clear) = true)
    (hclean : ∀ k, r < k → k ≤ n → ((input k).reset || (input k).clear) = false) :
    (run step s input (n+1)).pulseCount = BitVec.ofNat 32 (countedEdges s input r n).card := by
  induction n, hrn using Nat.le_induction with
  | base =>
      rw [run_succ,step_pulseCount,pulseCountStep_clear _ _ hr]
      simp [countedEdges]
  | succ n hrn ih =>
      rw [pulseCount_succ (by omega) (hclean (n+1) (by omega) le_rfl),
        ih (fun k hk hkn => hclean k hk (by omega)),countedEdges_succ hrn,BitVec.ofNat_add]

/-- A level sampled low once and then high for `m` edges gives one counted
edge, two edges after the low sample, if that edge is admitted. -/
theorem countedEdges_pulse {a m : ℕ} (hm : 0 < m) (hlow : countSample s input (a+1) = false)
    (hhigh : ∀ k, a+1 < k → k ≤ a+1+m → countSample s input k = true) :
    countedEdges s input (a+1) (a+1+m) =
      if admitted s input (a+2) then {a+2} else ∅ := by
  have hedge : ∀ i, a+1 < i → i ≤ a+1+m →
      (counted s input i = true ↔ i = a+2 ∧ admitted s input i = true) := by
    intro i hi him
    rcases Nat.eq_or_lt_of_le hi with rfl | hlt
    · simp [counted,hhigh (a+2) (by omega) (by omega),hlow]
    · have hprev : countSample s input (i-1) = true := hhigh (i-1) (by omega) (by omega)
      have hne : i ≠ a+2 := by omega
      simp [counted,hprev,hne]
  ext i
  simp only [countedEdges,Finset.mem_filter,Finset.mem_Ioc]
  constructor
  · rintro ⟨⟨hi,him⟩,hc⟩
    obtain ⟨rfl,hadm⟩ := (hedge i hi him).mp hc
    simp [hadm]
  · intro hi
    split_ifs at hi with hadm
    · rw [Finset.mem_singleton] at hi
      subst hi
      exact ⟨⟨by omega,by omega⟩,(hedge (a+2) (by omega) (by omega)).mpr ⟨rfl,hadm⟩⟩
    · simp at hi

/-- The count is the number of admitted sampled rises since the last cleared
edge, modulo the register width; COUNT_DATA shows it one edge later; and one
pulse, however long, is one counted edge. -/
theorem pulse_count_exact (s : State) (input : ℕ → Input) (r n : ℕ) (hrn : r ≤ n)
    (hr : ((input r).reset || (input r).clear) = true)
    (hclean : ∀ k, r < k → k ≤ n → ((input k).reset || (input k).clear) = false) :
    (run step s input (n+1)).pulseCount.toNat = (countedEdges s input r n).card % 2^32 ∧
      (run step s input (n+2)).countData = (run step s input (n+1)).pulseCount ∧
      ∀ a m, 0 < m → countSample s input (a+1) = false →
        (∀ k, a+1 < k → k ≤ a+1+m → countSample s input k = true) →
        (countedEdges s input (a+1) (a+1+m)).card = (admitted s input (a+2)).toNat := by
  refine ⟨?_,?_,?_⟩
  · rw [pulseCount_eq_card hrn hr hclean,BitVec.toNat_ofNat]
  · rw [run_succ,step_countData]
  · intro a m hm hlow hhigh
    rw [countedEdges_pulse hm hlow hhigh]
    cases admitted s input (a+2) <;> rfl

/-- Clear at edge zero, COUNT_SIG high from edge two to edge four. -/
def onePulse (n : ℕ) : Input :=
  ⟨true,false,decide (2 ≤ n ∧ n ≤ 4),false,0,0,if n = 0 then 1 else 0⟩

theorem pulse_count_exact_onePulse :
    (run step powerUp onePulse 7).pulseCount.toNat =
        (countedEdges powerUp onePulse 0 6).card % 2^32 ∧
      (run step powerUp onePulse 7).pulseCount = 1 :=
  ⟨(pulse_count_exact powerUp onePulse 0 6 (by decide) (by decide)
      (by intro k hk hk6; interval_cases k <;> decide)).1,by decide⟩

end FpgaTest.PulseTally
