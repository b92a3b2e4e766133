import FpgaTest.WrappingCounter

/-!
# The delay generator

`delayGen.v` exists twice, in the DAC and in the display block, with the same
two `always` blocks and its own counter width and limit in each. Width and limit
are parameters here. Nothing resets the counter except a clock edge with the
enable low, and a counter above the limit has to wrap before it can match.
-/
namespace FpgaTest.DelayGen
open WrappingCounter

structure State (w : ℕ) where
  counter : BitVec w
  delayDone : Bool
  deriving DecidableEq, Repr

variable {w : ℕ}

def step (limit : BitVec w) (s : State w) (delayEn : Bool) : State w where
  counter := if delayEn ∧ s.counter ≠ limit then s.counter + 1 else 0
  delayDone := delayEn && s.counter == limit

variable {limit : BitVec w} {s : State w}

theorem step_stopped (limit : BitVec w) (s : State w) : step limit s false = ⟨0,false⟩ := by
  simp [step]

theorem step_counting (h : s.counter ≠ limit) : step limit s true = ⟨s.counter+1,false⟩ := by
  simp [step,h]

theorem step_expired (h : s.counter = limit) : step limit s true = ⟨0,true⟩ := by
  simp [step,h]

/-- Clocks up to the end of the delay, if the enable is high from the next edge
on. -/
def clocksLeft (limit : BitVec w) (s : State w) (delayEn : Bool) : ℕ :=
  if s.delayDone then 0
  else if delayEn then remaining limit s.counter + 1
  else 2^w + 1

theorem clocksLeft_le (limit : BitVec w) (s : State w) (delayEn : Bool) :
    clocksLeft limit s delayEn ≤ 2^w+1 := by
  have := remaining_lt limit s.counter
  unfold clocksLeft
  split_ifs <;> omega

theorem clocksLeft_step (limit : BitVec w) (hd : s.delayDone = false) (delayEn : Bool) :
    clocksLeft limit (step limit s delayEn) true < clocksLeft limit s delayEn := by
  unfold clocksLeft
  rw [hd]
  cases delayEn with
  | false =>
      have hlt := remaining_lt limit 0
      rw [step_stopped]
      simp only [Bool.false_eq_true,if_false,if_true]
      omega
  | true =>
      by_cases hc : s.counter = limit
      · rw [step_expired hc]
        simp
      · have hrem := remaining_succ hc
        rw [step_counting hc]
        simp only [Bool.false_eq_true,if_false,if_true]
        omega

/-- `d` is the generator's state before each edge and `en` the enable at it. -/
def Follows (limit : BitVec w) (d : ℕ → State w) (en : ℕ → Bool) : Prop :=
  ∀ k, d (k+1) = step limit (d k) (en k)

variable {d : ℕ → State w} {en : ℕ → Bool} {a b j : ℕ}

theorem counter_step_le (limit : BitVec w) (s : State w) (delayEn : Bool) :
    (step limit s delayEn).counter.toNat ≤ s.counter.toNat + 1 := by
  simp only [step]
  split_ifs
  · rw [BitVec.toNat_add]
    exact (Nat.mod_le _ _).trans (Nat.add_le_add_left (by simpa using Nat.mod_le 1 _) _)
  · simp

theorem Follows.counter_le (h : Follows limit d en) (a j : ℕ) :
    (d (a+j)).counter.toNat ≤ (d a).counter.toNat + j := by
  induction j with
  | zero => rfl
  | succ j ih =>
      have hstep := counter_step_le limit (d (a+j)) (en (a+j))
      rw [← Nat.add_assoc,h]
      omega

theorem Follows.done_late (h : Follows limit d en) (hd : (d (a+j+1)).delayDone = true) :
    limit.toNat ≤ (d a).counter.toNat + j := by
  have hle := h.counter_le a j
  rw [h] at hd
  simp only [step,Bool.and_eq_true,beq_iff_eq] at hd
  rw [← hd.2]
  exact hle

theorem Follows.done_after_stop (h : Follows limit d en) (hstop : en a = false) (hab : a < b)
    (hd : (d b).delayDone = true) : a + limit.toNat + 2 ≤ b := by
  have hclear : d (a+1) = ⟨0,false⟩ := by rw [h,hstop,step_stopped]
  obtain ⟨j,rfl⟩ : ∃ j, b = a+1+j := ⟨b-(a+1),by omega⟩
  cases j with
  | zero =>
      rw [Nat.add_zero,hclear] at hd
      contradiction
  | succ j =>
      have hlate := h.done_late hd
      have hzero : (0 : BitVec w).toNat = 0 := by simp
      rw [hclear,hzero] at hlate
      omega

theorem counter_step_le_limit {delayEn : Bool} (h : s.counter.toNat ≤ limit.toNat) :
    (step limit s delayEn).counter.toNat ≤ limit.toNat := by
  simp only [step]
  split_ifs with hc
  · have hne : s.counter.toNat ≠ limit.toNat := fun he => hc.2 (BitVec.eq_of_toNat_eq he)
    have hone : (s.counter+1).toNat ≤ s.counter.toNat + 1 := by
      simpa [step,hc] using counter_step_le limit s delayEn
    omega
  · simp

/-- With the enable held, the counter runs up to the limit. -/
theorem Follows.counter_eq (h : Follows limit d en) (hen : ∀ k, a ≤ k → k < a+j → en k = true)
    (hj : (d a).counter.toNat + j ≤ limit.toNat) :
    (d (a+j)).counter.toNat = (d a).counter.toNat + j := by
  induction j with
  | zero => rfl
  | succ j ih =>
      have hprev := ih (fun k hk hkj => hen k hk (by omega)) (by omega)
      have hne : (d (a+j)).counter ≠ limit := by
        intro he
        rw [he] at hprev
        omega
      have hlt := limit.isLt
      have hone : (1 : BitVec w).toNat = 1 := by
        change 1 % 2^w = 1
        exact Nat.mod_eq_of_lt (by omega)
      rw [← Nat.add_assoc,h,hen (a+j) (by omega) (by omega),step_counting hne,BitVec.toNat_add,
        hprev,hone,Nat.mod_eq_of_lt (by omega),Nat.add_assoc]

theorem Follows.done_reached (h : Follows limit d en) (hen : ∀ k, a ≤ k → k ≤ a+j → en k = true)
    (hj : (d a).counter.toNat + j = limit.toNat) : (d (a+j+1)).delayDone = true := by
  have hc := h.counter_eq (fun k hk hkj => hen k hk (by omega)) hj.le
  rw [hj] at hc
  rw [h,hen (a+j) (by omega) le_rfl,step_expired (BitVec.eq_of_toNat_eq hc)]

end FpgaTest.DelayGen
