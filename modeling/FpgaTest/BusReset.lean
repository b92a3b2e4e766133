import FpgaTest.CounterSlave

/-!
# What the bus reset does to the counter core

The instance connects RESET_N to the complement of an undriven net, not to
S_AXI_ARESETN. `ResetReaches` and `SameAfterReset` state what the connection
is for, the second one over two runs with arbitrary histories. Both hold of a
pair of runs exactly when at every edge the button is pressed or the net
happens to have the value opposite to S_AXI_ARESETN. No constant has that
property for a bus that is reset once and then released.
-/
namespace FpgaTest.BusReset
open ClockedMachine CounterSlave

/-- The core is in its reset branch at this edge. -/
def coreReset (net : Bool) (s : State) (i : Input) : Bool := (coreInput net s i).reset

/-- What an edge outside reset does to the count: cleared by CONFIG_REG[0],
else advanced by a sampled rise that the trigger mode admits. -/
def Counts (s : State) (after : BitVec 32) : Prop :=
  after =
    if s.regs.slvReg3.getLsbD 0 then 0
    else if s.core.sampler.countRise && (!s.regs.slvReg3.getLsbD 1 || s.core.gate.isTrigger) then
      s.core.pulseCount + 1
    else s.core.pulseCount

/-- Exactly the bus reset and the button reset the core, and without them it
counts. -/
structure ResetReaches (net : Bool) (s : State) (input : ℕ → Input) : Prop where
  branch : ∀ n, coreReset net (run (step net) s input n) (input n) = true ↔
    (input n).aresetn = false ∨ (input n).resetBtn = true
  counts : ∀ n, (input n).aresetn = true → (input n).resetBtn = false →
    Counts (run (step net) s input n) (run (step net) s input (n+1)).core.pulseCount

/-- The bus reset is held for the three edges from `n`. -/
def ResetHeld (input : ℕ → Input) (n : ℕ) : Prop :=
  (input n).aresetn = false ∧ (input (n+1)).aresetn = false ∧ (input (n+2)).aresetn = false

/-- The registers that a reset is to define: pulse_count, trigger_count,
isTrigger, tstate, COUNT_DATA and slv_reg0. -/
def resetView (s : State) :
    BitVec 32 × BitVec 32 × Bool × PulseCounter.TState × BitVec 32 × BitVec 32 :=
  (s.core.pulseCount,s.core.gate.triggerCount,s.core.gate.isTrigger,s.core.gate.tstate,
    s.core.countData,s.regs.slvReg0)

/-- After a held reset the two runs cannot be told apart. -/
def SameAfterReset (net : Bool) (s s' : State) (input input' : ℕ → Input) : Prop :=
  ∀ n m, ResetHeld input n → ResetHeld input' m →
    resetView (run (step net) s input (n+3)) = resetView (run (step net) s' input' (m+3))

/-- The value of the net does what a connected S_AXI_ARESETN would do. -/
def NetActsAsReset (net : Bool) (i : Input) : Prop := i.resetBtn = true ∨ net = !i.aresetn

theorem coreReset_eq (net : Bool) (s : State) (i : Input) :
    coreReset net s i = (net || i.resetBtn) := by
  simp [coreReset,coreInput,PulseCounter.Input.reset]

theorem branch_iff (net : Bool) (s : State) (i : Input) :
    (coreReset net s i = true ↔ i.aresetn = false ∨ i.resetBtn = true) ↔
      NetActsAsReset net i := by
  rw [coreReset_eq,NetActsAsReset]
  cases net <;> cases i.resetBtn <;> cases i.aresetn <;> simp

theorem counts_of_not_reset {net : Bool} {s : State} {i : Input}
    (h : coreReset net s i = false) : Counts s (step net s i).core.pulseCount := by
  unfold coreReset at h
  unfold Counts
  rw [step_core,PulseCounter.step_pulseCount,PulseCounter.pulseCountStep,h]
  simp only [coreInput,PulseCounter.Input.clear,PulseCounter.Input.triggerMode,Bool.false_or]
  by_cases hmode : s.regs.slvReg3.getLsbD 1 = true
  · simp only [hmode,if_true,Bool.not_true,Bool.false_or]
  · rw [Bool.not_eq_true] at hmode
    simp only [hmode,Bool.false_eq_true,if_false,Bool.not_false,Bool.true_or,Bool.and_true]

theorem resetView_of_reset {net : Bool} {s : State} {input : ℕ → Input} {n : ℕ}
    (hheld : ResetHeld input n)
    (hcore : ∀ k, coreReset net (run (step net) s input k) (input k) = true ↔
      (input k).aresetn = false ∨ (input k).resetBtn = true) :
    resetView (run (step net) s input (n+3)) = (0,0,false,.idel,0,0) := by
  have h1 := (hcore (n+1)).mpr (Or.inl hheld.2.1)
  have h2 := (hcore (n+2)).mpr (Or.inl hheld.2.2)
  unfold coreReset at h1 h2
  have hcount : (run (step net) s input (n+2)).core.pulseCount = 0 := by
    rw [run_succ,step_core,PulseCounter.step_pulseCount]
    exact PulseCounter.pulseCountStep_clear _ _ (by simp [h1])
  have hcount' : (run (step net) s input (n+3)).core.pulseCount = 0 := by
    rw [run_succ,step_core,PulseCounter.step_pulseCount]
    exact PulseCounter.pulseCountStep_clear _ _ (by simp [h2])
  have hgate : (run (step net) s input (n+3)).core.gate =
      { (run (step net) s input (n+2)).core.gate with
        triggerCount := 0, isTrigger := false, tstate := .idel } := by
    rw [run_succ,step_core,PulseCounter.step_gate,PulseCounter.gate_reset h2]
  have hdata : (run (step net) s input (n+3)).core.countData = 0 := by
    rw [run_succ,step_core,PulseCounter.step_countData,hcount]
  have hreg : (run (step net) s input (n+3)).regs.slvReg0 = 0 := by
    rw [run_succ,step_regs,Registers.step,if_pos hheld.2.2]
  rw [resetView,hcount',hgate,hdata,hreg]

/-- The bus reset reaches the core, alone with the button, and erases every
history, exactly when at every edge the button is pressed or the net is the
complement of S_AXI_ARESETN. -/
theorem reset_reaches_iff (net : Bool) (s s' : State) (input input' : ℕ → Input) :
    (ResetReaches net s input ∧ ResetReaches net s' input' ∧
        SameAfterReset net s s' input input') ↔
      (∀ n, NetActsAsReset net (input n)) ∧ ∀ n, NetActsAsReset net (input' n) := by
  have reaches : ∀ {s : State} {input : ℕ → Input}, (∀ n, NetActsAsReset net (input n)) →
      ResetReaches net s input := by
    intro s input h
    have hbranch := fun n => (branch_iff net (run (step net) s input n) (input n)).mpr (h n)
    refine ⟨hbranch,?_⟩
    intro n hn hb
    apply counts_of_not_reset
    rw [Bool.eq_false_iff,ne_eq,hbranch n]
    simp [hn,hb]
  constructor
  · intro h
    rcases h with ⟨h,h',-⟩
    exact ⟨fun n => (branch_iff net _ _).mp (h.branch n),
      fun n => (branch_iff net _ _).mp (h'.branch n)⟩
  · intro h
    have hs : ResetReaches net s input := reaches h.1
    have hs' : ResetReaches net s' input' := reaches h.2
    refine ⟨hs,hs',?_⟩
    intro n m hn hm
    rw [resetView_of_reset hn hs.branch,resetView_of_reset hm hs'.branch]

/-- A quiet bus whose reset is low in the first four cycles and again from
cycle ten on; COUNT_SIG is high in cycle six when `pulse` says so. -/
def resetTwice (pulse : Bool) (n : ℕ) : Input where
  aresetn := decide (4 ≤ n ∧ n < 10)
  resetBtn := false
  countSig := pulse && decide (n = 6)
  triggerSig := false
  awaddr := 0
  awvalid := false
  wdata := 0
  wstrb := 0
  wvalid := false
  bready := false
  araddr := 0
  arvalid := false
  rready := false

/-- Either value of the net fails: at zero the count survives the reset, at one
the core is in reset with both resets inactive. -/
theorem reset_misses_core :
    (ResetHeld (resetTwice true) 10 ∧ ResetHeld (resetTwice false) 10 ∧
      resetView (run (step false) powerUp (resetTwice true) 13) ≠
        resetView (run (step false) powerUp (resetTwice false) 13)) ∧
    ((resetTwice true 5).aresetn = true ∧ (resetTwice true 5).resetBtn = false ∧
      coreReset true (run (step true) powerUp (resetTwice true) 5) (resetTwice true 5) = true) ∧
    ∀ net, ¬ (ResetReaches net powerUp (resetTwice true) ∧
      ResetReaches net powerUp (resetTwice false) ∧
      SameAfterReset net powerUp powerUp (resetTwice true) (resetTwice false)) := by
  refine ⟨⟨⟨rfl,rfl,rfl⟩,⟨rfl,rfl,rfl⟩,by decide⟩,by decide,?_⟩
  intro net h
  cases net with
  | false =>
      have hsame := h.2.2 10 10 ⟨rfl,rfl,rfl⟩ ⟨rfl,rfl,rfl⟩
      exact absurd hsame (by decide)
  | true =>
      have hbranch := (h.1.branch 5).mp (by decide)
      exact absurd hbranch (by decide)

end FpgaTest.BusReset
