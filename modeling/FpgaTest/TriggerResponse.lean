import FpgaTest.TriggerGate

/-!
# Which trigger edges open the gate

With both registers held and no reset, the gate answers exactly the sampled
trigger edges that find the machine idle, each of them TRIGGER_DLY + 1 edges
later. `Origin` remembers for every state of the delay phase the edge that
started it; the converse counts forward from that edge. The trigger input is
read in the idle state alone, so two runs that agree there have the same gate
in every cycle.
-/
namespace FpgaTest.TriggerResponse
open ClockedMachine PulseCounter TriggerGate

/-- A trigger edge that the idle machine sees at clock edge `a`. -/
def Accepted (s : State) (input : ℕ → Input) (a : ℕ) : Prop :=
  (run step s input a).gate.tstate = .idel ∧ (run step s input a).sampler.triggerRise = true

/-- The gate goes from closed to open at clock edge `e`. -/
def Opens (s : State) (input : ℕ → Input) (e : ℕ) : Prop :=
  gateTrace s input e = false ∧ gateTrace s input (e+1) = true

/-- The gate is open in the width phase only, and the count rests at zero
while the machine is idle. -/
structure Regular (g : Gate) : Prop where
  idelCount : g.tstate = .idel → g.triggerCount = 0
  isTrigger : g.isTrigger = true ↔ g.tstate = .width

variable {s : State} {input : ℕ → Input} {dly width : BitVec 32}

theorem regular_step {g : Gate} {r : Bool} {i : Input} (hr : i.reset = false) (h : Regular g) :
    Regular (g.step r i) := by
  have hopen := h.isTrigger
  cases ht : g.tstate with
  | idel =>
      cases r with
      | false =>
          rw [gate_idel_waits hr ht]
          exact h
      | true =>
          rw [gate_idel_starts hr ht]
          exact ⟨by simp,by simp [hopen,ht]⟩
  | delay =>
      by_cases hc : g.triggerCount = i.triggerDly
      · rw [gate_delay_opens hr ht hc]
        exact ⟨by simp,by simp⟩
      · rw [gate_delay_counts hr ht hc]
        exact ⟨by simp [ht],hopen⟩
  | width =>
      by_cases hc : g.triggerCount = i.triggerWidth
      · rw [gate_width_closes hr ht hc]
        exact ⟨by simp,by simp⟩
      · rw [gate_width_counts hr ht hc]
        exact ⟨by simp [ht],hopen⟩

theorem regular_run (h : Steady input dly width) (hs : Regular s.gate) (n : ℕ) :
    Regular (run step s input n).gate := by
  induction n with
  | zero => exact hs
  | succ n ih => exact regular_step (h.noReset n) ih

/-- After an accepted edge the delay phase counts from zero. -/
theorem delay_phase (h : Steady input dly width) (hs : Regular s.gate) {a : ℕ}
    (ha : Accepted s input a) (k : ℕ) (hk : k ≤ dly.toNat) :
    (run step s input (a+1+k)).gate.tstate = .delay ∧
      (run step s input (a+1+k)).gate.triggerCount = BitVec.ofNat 32 k := by
  induction k with
  | zero =>
      rw [Nat.add_zero,run_succ,step_gate,ha.2,gate_idel_starts (h.noReset a) ha.1]
      exact ⟨rfl,(regular_run h hs a).idelCount ha.1⟩
  | succ k ih =>
      rcases ih (by omega) with ⟨ht,hc⟩
      have hne : (run step s input (a+1+k)).gate.triggerCount ≠ (input (a+1+k)).triggerDly := by
        rw [hc,h.triggerDly]
        bv_omega
      rw [← Nat.add_assoc,run_succ,step_gate,gate_delay_counts (h.noReset _) ht hne]
      exact ⟨ht,by simp [hc,BitVec.ofNat_add]⟩

theorem opens_of_accepted (h : Steady input dly width) (hs : Regular s.gate) {a : ℕ}
    (ha : Accepted s input a) : Opens s input (a+dly.toNat+1) := by
  have he : a+dly.toNat+1 = a+1+dly.toNat := by omega
  rcases delay_phase h hs ha dly.toNat le_rfl with ⟨ht,hc⟩
  have hdly : (run step s input (a+1+dly.toNat)).gate.triggerCount =
      (input (a+1+dly.toNat)).triggerDly := by
    rw [hc,h.triggerDly,BitVec.ofNat_toNat,BitVec.setWidth_eq]
  rw [he]
  constructor
  · have hreg := (regular_run h hs (a+1+dly.toNat)).isTrigger
    rw [ht] at hreg
    simpa [gateTrace] using hreg
  · rw [gateTrace,run_succ,step_gate,gate_delay_opens (h.noReset _) ht hdly]

/-- A delay phase that has counted to `c` was started `c + 1` edges ago, and
has not passed its target. -/
def Origin (s : State) (input : ℕ → Input) (dly : BitVec 32) (n : ℕ) : Prop :=
  (run step s input n).gate.tstate = .delay → ∃ a, Accepted s input a ∧
    n = a+1+(run step s input n).gate.triggerCount.toNat ∧
    (run step s input n).gate.triggerCount ≤ dly

theorem origin_run (h : Steady input dly width) (hs : Regular s.gate) (n : ℕ)
    (hidel : s.gate.tstate = .idel) : Origin s input dly n := by
  induction n with
  | zero =>
      intro hd
      rw [run,hidel] at hd
      contradiction
  | succ n ih =>
      intro hd
      rw [run_succ,step_gate] at hd ⊢
      have hr := h.noReset n
      cases ht : (run step s input n).gate.tstate with
      | idel =>
          cases hrise : (run step s input n).sampler.triggerRise with
          | false => simp [hrise,gate_idel_waits hr ht,ht] at hd
          | true =>
              rw [gate_idel_starts hr ht]
              simp only [(regular_run h hs n).idelCount ht]
              exact ⟨n,⟨ht,hrise⟩,rfl,Nat.zero_le _⟩
      | delay =>
          rcases ih ht with ⟨a,ha,hn,hle⟩
          by_cases hc : (run step s input n).gate.triggerCount = (input n).triggerDly
          · simp [gate_delay_opens hr ht hc] at hd
          · rw [gate_delay_counts hr ht hc]
            rw [h.triggerDly] at hc
            refine ⟨a,ha,?_,?_⟩
            · simp only
              bv_omega
            · simp only
              bv_omega
      | width =>
          by_cases hc : (run step s input n).gate.triggerCount = (input n).triggerWidth
          · simp [gate_width_closes hr ht hc] at hd
          · simp [gate_width_counts hr ht hc,ht] at hd

/-- The edge that opens the gate ends a delay phase. -/
theorem delay_of_opens (h : Steady input dly width) (hs : Regular s.gate) {e : ℕ}
    (he : Opens s input e) : (run step s input e).gate.tstate = .delay ∧
      (run step s input e).gate.triggerCount = dly := by
  rcases he with ⟨hlow,hhigh⟩
  rcases gate_opens hlow hhigh with ⟨hw,-⟩
  have hr := h.noReset e
  cases ht : (run step s input e).gate.tstate with
  | idel =>
      cases hrise : (run step s input e).sampler.triggerRise with
      | false => simp [hrise,gate_idel_waits hr ht,ht] at hw
      | true => simp [hrise,gate_idel_starts hr ht] at hw
  | delay =>
      by_cases hc : (run step s input e).gate.triggerCount = (input e).triggerDly
      · rw [hc,h.triggerDly]
        exact ⟨rfl,rfl⟩
      · simp [gate_delay_counts hr ht hc,ht] at hw
  | width =>
      have hreg := (regular_run h hs e).isTrigger.mpr ht
      rw [gateTrace,hreg] at hlow
      contradiction

theorem opens_iff (h : Steady input dly width) (hs : Regular s.gate)
    (hidel : s.gate.tstate = .idel) (e : ℕ) :
    Opens s input e ↔ ∃ a, e = a+dly.toNat+1 ∧ Accepted s input a := by
  constructor
  · intro he
    rcases delay_of_opens h hs he with ⟨ht,hc⟩
    rcases origin_run h hs e hidel ht with ⟨a,ha,hn,-⟩
    rw [hc] at hn
    exact ⟨a,by omega,ha⟩
  · intro he
    rcases he with ⟨a,rfl,ha⟩
    exact opens_of_accepted h hs ha

theorem gate_step_busy {g : Gate} {i i' : Input} (r r' : Bool) (hr : i.reset = false)
    (hr' : i'.reset = false) (hdly : i.triggerDly = i'.triggerDly)
    (hwidth : i.triggerWidth = i'.triggerWidth) (hedge : g.tstate = .idel → r = r') :
    g.step r i = g.step r' i' := by
  unfold Gate.step
  cases ht : g.tstate with
  | idel => simp [hr,hr',hedge ht]
  | delay => simp [hr,hr',hdly]
  | width => simp [hr,hr',hwidth]

theorem gate_determined {s' : State} {input' : ℕ → Input} (h : Steady input dly width)
    (h' : Steady input' dly width) (hgate : s.gate = s'.gate)
    (hagree : ∀ n, (run step s input n).gate.tstate = .idel →
      (run step s input n).sampler.triggerRise = (run step s' input' n).sampler.triggerRise)
    (n : ℕ) : (run step s input n).gate = (run step s' input' n).gate := by
  induction n with
  | zero => exact hgate
  | succ n ih =>
      rw [run_succ,run_succ,step_gate,step_gate,← ih]
      exact gate_step_busy _ _ (h.noReset n) (h'.noReset n)
        ((h.triggerDly n).trans (h'.triggerDly n).symm)
        ((h.triggerWidth n).trans (h'.triggerWidth n).symm) (hagree n)

/-- The sampled edge at `n+2` compares TRIGGER_SIG at edges `n+1` and `n`. -/
theorem triggerRise_eq (h : Steady input dly width) (n : ℕ) :
    (run step s input (n+2)).sampler.triggerRise =
      ((input (n+1)).triggerSig && !(input n).triggerSig) := by
  rw [run_succ,run_succ,step_sampler,step_sampler]
  simp [Sampler.triggerRise,Sampler.step,h.noReset]

/-- An idle machine whose trigger stays high stays idle, and the gate closed. -/
theorem idel_while_high (h : Steady input dly width) {n m : ℕ}
    (hidel : (run step s input (n+2)).gate.tstate = .idel)
    (hhigh : ∀ k, n ≤ k → k ≤ m → (input k).triggerSig = true) (k : ℕ) (hnk : n+2 ≤ k)
    (hkm : k ≤ m+2) : (run step s input k).gate.tstate = .idel := by
  induction k, hnk using Nat.le_induction with
  | base => exact hidel
  | succ k hnk ih =>
      obtain ⟨j,rfl⟩ : ∃ j, k = j+2 := ⟨k-2,by omega⟩
      have hrise : (run step s input (j+2)).sampler.triggerRise = false := by
        rw [triggerRise_eq h,hhigh j (by omega) (by omega)]
        simp
      have ht := ih (by omega)
      rw [run_succ,step_gate,hrise,gate_idel_waits (h.noReset _) ht]
      exact ht

/-- The gate opens TRIGGER_DLY + 1 edges after each trigger edge that finds the
machine idle and at no other edge; trigger edges outside the idle state do not
change the gate; a trigger held high over the return to idle starts nothing. -/
theorem trigger_response (s : State) (input : ℕ → Input) (dly width : BitVec 32)
    (h : Steady input dly width) (hidel : s.gate.tstate = .idel)
    (hcount : s.gate.triggerCount = 0) (hclosed : s.gate.isTrigger = false) :
    (∀ e, Opens s input e ↔ ∃ a, e = a+dly.toNat+1 ∧ Accepted s input a) ∧
      (∀ s' input', Steady input' dly width → s.gate = s'.gate →
        (∀ n, (run step s input n).gate.tstate = .idel →
          (run step s input n).sampler.triggerRise =
            (run step s' input' n).sampler.triggerRise) →
        ∀ n, (run step s input n).gate = (run step s' input' n).gate) ∧
      ∀ n m, (run step s input (n+1)).gate.tstate ≠ .idel →
        (run step s input (n+2)).gate.tstate = .idel →
        (∀ k, n ≤ k → k ≤ m → (input k).triggerSig = true) →
        ∀ k, n+2 ≤ k → k ≤ m+2 →
          (run step s input k).gate.tstate = .idel ∧ gateTrace s input k = false := by
  have hs : Regular s.gate := ⟨fun _ => hcount,by simp [hclosed,hidel]⟩
  refine ⟨opens_iff h hs hidel,?_,?_⟩
  · intro s' input' h' hgate hagree n
    exact gate_determined h h' hgate hagree n
  · intro n m _ hreturn hhigh k hnk hkm
    have ht := idel_while_high h hreturn hhigh k hnk hkm
    have hopen := (regular_run h hs k).isTrigger
    rw [ht] at hopen
    exact ⟨ht,by simpa [gateTrace] using hopen⟩

/-- A held trigger with delay one and width two: accepted at edge one, open at
edge three, idle again before edge six and still high. -/
theorem trigger_response_heldTrigger :
    Accepted powerUp (heldTrigger 1 2) 1 ∧ Opens powerUp (heldTrigger 1 2) 3 ∧
      (run step powerUp (heldTrigger 1 2) 6).gate.tstate = .idel ∧
      gateTrace powerUp (heldTrigger 1 2) 9 = false := by
  have h := trigger_response powerUp (heldTrigger 1 2) 1 2 (steady_heldTrigger 1 2) rfl rfl rfl
  have ha : Accepted powerUp (heldTrigger 1 2) 1 := ⟨by decide,by decide⟩
  have hreturn := h.2.2 4 7 (by decide) (by decide) (fun k _ _ => rfl)
  exact ⟨ha,(h.1 3).mpr ⟨1,rfl,ha⟩,(hreturn 6 (by decide) (by decide)).1,
    (hreturn 9 (by decide) (by decide)).2⟩

end FpgaTest.TriggerResponse
