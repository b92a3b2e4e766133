import FpgaTest.CounterSlave
import FpgaTest.PulseTally

/-!
# Bus accesses and the values they return

S_AXI_RDATA is selected from the four words and not held. Three of them change
only when they are written; the word at offset zero follows the count. The
first result says when valid data that waits for RREADY keeps its value.

The second result follows the two writes of `set_clear` and a read of the count
through the handshakes of an ordered master. The count needs three registers
from `pulse_count` to S_AXI_RDATA, and the shortest sequence of handshakes from
the second write to the read takes three edges.
-/
namespace FpgaTest.BusAccess
open ClockedMachine CounterSlave

variable {net : Bool} {s : State} {input : ℕ → Input}

/-- Read data is valid and the master does not take it at this edge. -/
def Waiting (s : State) (i : Input) : Prop := s.read.rvalid = true ∧ i.rready = false

/-- A write at this edge is directed to the word being read. -/
def WritesReadWord (s : State) (i : Input) : Prop :=
  i.wvalid = true ∧ writeWord s.write i = word s.read.araddr

theorem read_waits {r : ReadChannel} {i : Input} (hr : i.aresetn = true)
    (hs : r.stateRead = .rdata) (hw : i.rready = false) : r.step i = r := by
  simp [ReadChannel.step,hr,hs,hw]

/-- One waiting edge: the words that can be written are kept, and the count
word is kept if it already shows COUNT_DATA. -/
theorem rdata_step_iff {i : Input} (hcons : s.read.Consistent) (hr : i.aresetn = true)
    (hw : Waiting s i) (hother : ¬ WritesReadWord s i) :
    rdata (step net s i) = rdata s ↔
      word s.read.araddr ≠ 0 ∨ s.core.countData = s.regs.slvReg0 := by
  have hread : (step net s i).read = s.read :=
    read_waits hr (hcons.stateRead_of_rvalid hw.1) hw.2
  have hkeep : ∀ v, word s.read.araddr = v → ¬ (i.wvalid = true ∧ writeWord s.write i = v) := by
    intro v hv h
    exact hother ⟨h.1,h.2.trans hv.symm⟩
  unfold rdata
  rw [hread,step_regs,Registers.step_eq hr]
  by_cases h0 : word s.read.araddr = 0
  · simp [h0]
  by_cases h1 : word s.read.araddr = 1
  · rw [if_neg (hkeep 1 h1)]
    simp [h1]
  by_cases h2 : word s.read.araddr = 2
  · rw [if_neg (hkeep 2 h2)]
    simp [h2]
  by_cases h3 : word s.read.araddr = 3
  · rw [if_neg (hkeep 3 h3)]
    simp [h3]
  · simp only [h0,h1,h2,h3,if_false,ne_eq,not_false_iff,true_or]

theorem slvReg0_eq (net : Bool) (hr : ∀ k, (input k).aresetn = true) (n : ℕ) :
    (run (step net) s input (n+2)).regs.slvReg0 = (run (step net) s input n).core.pulseCount := by
  rw [run_succ,step_regs,Registers.step_eq (hr (n+1)),run_succ,step_core,
    PulseCounter.step_countData]

/-- The count changes at edge `n`. -/
def CountChanges (net : Bool) (input : ℕ → Input) (n : ℕ) : Prop :=
  PulseCounter.CountChanges (run (step net) powerUp input n).core
    (coreInput net (run (step net) powerUp input n) (input n))

theorem countData_eq_iff (net : Bool) (hr : ∀ k, (input k).aresetn = true) (n : ℕ) :
    (run (step net) powerUp input (n+2)).core.countData =
      (run (step net) powerUp input (n+2)).regs.slvReg0 ↔ ¬ CountChanges net input n := by
  rw [slvReg0_eq net hr,CountChanges,← PulseCounter.pulseCountStep_ne_iff,not_not,run_succ,
    step_core,PulseCounter.step_countData,run_succ,step_core,PulseCounter.step_pulseCount]

theorem not_waiting_early (net : Bool) (hr : (input 0).aresetn = true) {n : ℕ} (hn : n < 2)
    (i : Input) : ¬ Waiting (run (step net) powerUp input n) i := by
  intro h
  have hvalid := h.1
  have hcases : n = 0 ∨ n = 1 := by omega
  rcases hcases with rfl | rfl
  · contradiction
  · rw [run_succ,step_read] at hvalid
    simp [run,powerUp,ReadChannel.step,hr] at hvalid

/-- In a run without bus reset, waiting read data never changes under the
master exactly when at every wait on the count word the count has not changed
two edges before. -/
theorem rdata_stable_iff (net : Bool) (input : ℕ → Input) (hr : ∀ n, (input n).aresetn = true) :
    (∀ n, Waiting (run (step net) powerUp input n) (input n) →
        ¬ WritesReadWord (run (step net) powerUp input n) (input n) →
        rdata (run (step net) powerUp input (n+1)) = rdata (run (step net) powerUp input n)) ↔
      ∀ n, Waiting (run (step net) powerUp input (n+2)) (input (n+2)) →
        ¬ WritesReadWord (run (step net) powerUp input (n+2)) (input (n+2)) →
        word (run (step net) powerUp input (n+2)).read.araddr ≠ 0 ∨ ¬ CountChanges net input n := by
  have hedge : ∀ n, Waiting (run (step net) powerUp input (n+2)) (input (n+2)) →
      ¬ WritesReadWord (run (step net) powerUp input (n+2)) (input (n+2)) →
      (rdata (run (step net) powerUp input (n+2+1)) = rdata (run (step net) powerUp input (n+2)) ↔
        word (run (step net) powerUp input (n+2)).read.araddr ≠ 0 ∨
          ¬ CountChanges net input n) := by
    intro n hw hother
    rw [← countData_eq_iff net hr]
    exact rdata_step_iff (read_consistent net input read_powerUp (n+2)) (hr (n+2)) hw hother
  constructor
  · intro h n hw hother
    exact (hedge n hw hother).mp (h (n+2) hw hother)
  · intro h n hw hother
    match n with
    | 0 | 1 => exact absurd hw (not_waiting_early net (hr 0) (by decide) _)
    | n+2 => exact (hedge n hw hother).mpr (h n hw hother)

/-- A read of `addr` that is never taken, with COUNT_SIG high from edge three on. -/
def heldRead (addr : BitVec 4) (n : ℕ) : Input where
  aresetn := true
  resetBtn := false
  countSig := decide (3 ≤ n)
  triggerSig := false
  awaddr := 0
  awvalid := false
  wdata := 0
  wstrb := 0
  wvalid := false
  bready := false
  araddr := addr
  arvalid := true
  rready := false

theorem rdata_stable_heldRead :
    (∀ n, (heldRead 12 n).aresetn = true) ∧
      ((∀ n, Waiting (run (step false) powerUp (heldRead 12) n) (heldRead 12 n) →
          ¬ WritesReadWord (run (step false) powerUp (heldRead 12) n) (heldRead 12 n) →
          rdata (run (step false) powerUp (heldRead 12) (n+1)) =
            rdata (run (step false) powerUp (heldRead 12) n)) ↔
        ∀ n, Waiting (run (step false) powerUp (heldRead 12) (n+2)) (heldRead 12 (n+2)) →
          ¬ WritesReadWord (run (step false) powerUp (heldRead 12) (n+2)) (heldRead 12 (n+2)) →
          word (run (step false) powerUp (heldRead 12) (n+2)).read.araddr ≠ 0 ∨
            ¬ CountChanges false (heldRead 12) n) ∧
      Waiting (run (step false) powerUp (heldRead 12) 2) (heldRead 12 2) :=
  ⟨fun _ => rfl,rdata_stable_iff false (heldRead 12) (fun _ => rfl),⟨by decide,rfl⟩⟩

/-- The count register is read at offset zero and counts one pulse while the
master waits. -/
theorem rdata_changes_heldRead :
    Waiting (run (step false) powerUp (heldRead 0) 6) (heldRead 0 6) ∧
      rdata (run (step false) powerUp (heldRead 0) 6) = 0 ∧
      rdata (run (step false) powerUp (heldRead 0) 7) = 1 ∧
      ¬ ∀ n, Waiting (run (step false) powerUp (heldRead 0) n) (heldRead 0 n) →
        ¬ WritesReadWord (run (step false) powerUp (heldRead 0) n) (heldRead 0 n) →
        rdata (run (step false) powerUp (heldRead 0) (n+1)) =
          rdata (run (step false) powerUp (heldRead 0) n) := by
  have hwait : Waiting (run (step false) powerUp (heldRead 0) 6) (heldRead 0 6) := ⟨by decide,rfl⟩
  refine ⟨hwait,by decide,by decide,?_⟩
  intro h
  have h6 := h 6 hwait (fun hw => absurd hw.1 (by decide))
  exact absurd h6 (by decide)

/-- AWVALID and WVALID go up together at `p` with all strobes set and stay up
until the slave is ready for both at `w`; the response is taken at `b`. -/
structure WriteAccess (s : State) (input : ℕ → Input) (addr : BitVec 4) (data : BitVec 32)
    (p w b : ℕ) : Prop where
  start : p ≤ w
  presented : ∀ k, p ≤ k → k ≤ w → (input k).awvalid = true ∧ (input k).wvalid = true ∧
    (input k).awaddr = addr ∧ (input k).wdata = data ∧ (input k).wstrb = 15
  refused : ∀ k, p ≤ k → k < w → ¬ ((run (step false) s input k).write.awready = true ∧
    (run (step false) s input k).write.wready = true)
  taken : (run (step false) s input w).write.awready = true ∧
    (run (step false) s input w).write.wready = true
  later : w < b
  pending : ∀ k, w < k → k < b → ¬ ((run (step false) s input k).write.bvalid = true ∧
    (input k).bready = true)
  answered : (run (step false) s input b).write.bvalid = true ∧ (input b).bready = true

/-- ARVALID goes up at `p` and stays up until the address is taken at `a`; the
data is taken at `r`. -/
structure ReadAccess (s : State) (input : ℕ → Input) (addr : BitVec 4) (p a r : ℕ) : Prop where
  start : p ≤ a
  presented : ∀ k, p ≤ k → k ≤ a → (input k).arvalid = true ∧ (input k).araddr = addr
  refused : ∀ k, p ≤ k → k < a → (run (step false) s input k).read.arready = false
  taken : (run (step false) s input a).read.arready = true
  later : a < r
  pending : ∀ k, a < k → k < r → ¬ ((run (step false) s input k).read.rvalid = true ∧
    (input k).rready = true)
  answered : (run (step false) s input r).read.rvalid = true ∧ (input r).rready = true

/-- Edges of the three accesses: presented, taken and answered. -/
structure Schedule where
  p1 : ℕ
  w1 : ℕ
  b1 : ℕ
  p2 : ℕ
  w2 : ℕ
  b2 : ℕ
  p3 : ℕ
  a : ℕ
  r : ℕ
  deriving DecidableEq, Repr

/-- The two writes of `set_clear` to the config word and a read of the count
word, each issued after the response of the one before, and no other access. -/
structure ClearThenRead (s : State) (input : ℕ → Input) (set clear : BitVec 32) (t : Schedule) :
    Prop where
  setBit : set.getLsbD 0 = true
  clearBit : clear.getLsbD 0 = false
  first : WriteAccess s input 12 set t.p1 t.w1 t.b1
  second : WriteAccess s input 12 clear t.p2 t.w2 t.b2
  read : ReadAccess s input 0 t.p3 t.a t.r
  secondAfter : t.b1 < t.p2
  readAfter : t.b2 < t.p3
  quietWrite : ∀ k, k < t.p1 ∨ (t.w1 < k ∧ k < t.p2) ∨ (t.w2 < k ∧ k ≤ t.r) →
    (input k).awvalid = false ∧ (input k).wvalid = false
  quietRead : ∀ k, k < t.p3 ∨ (t.a < k ∧ k ≤ t.r) → (input k).arvalid = false

/-- States of the slave with the core's RESET_N high, after any bus history. -/
def Reachable (s : State) : Prop := ∃ input n, s = run (step false) powerUp input n

theorem WriteChannel.stateWrite_of_awready {w : WriteChannel} (h : w.Consistent)
    (ha : w.awready = true) : w.stateWrite = .waddr := by
  unfold WriteChannel.Consistent at h
  cases hs : w.stateWrite with
  | idle => simp [hs,ha] at h
  | waddr => rfl
  | wdata => simp [hs,ha] at h

theorem stateWrite_taken {w : WriteChannel} {i : Input} (hr : i.aresetn = true)
    (hs : w.stateWrite = .waddr) (ha : w.awready = true) (hv : i.awvalid = true)
    (hd : i.wvalid = true) : (w.step i).stateWrite = .waddr := by
  simp [WriteChannel.step,hr,hs,ha,hv,hd]

theorem stateWrite_quiet {w : WriteChannel} {i : Input} (hr : i.aresetn = true)
    (hs : w.stateWrite = .waddr) (hv : i.awvalid = false) : (w.step i).stateWrite = .waddr := by
  simp [WriteChannel.step,hr,hs,hv]

theorem araddr_quiet {r : ReadChannel} {i : Input} (hr : i.aresetn = true)
    (hv : i.arvalid = false) : (r.step i).araddr = r.araddr := by
  unfold ReadChannel.step
  cases hs : r.stateRead with
  | idle => simp [hr]
  | raddr => simp [hr,hv]
  | rdata => cases r.rvalid && i.rready <;> simp [hr]

theorem slvReg3_quiet {r : Registers} {w : WriteChannel} {c : BitVec 32} {i : Input}
    (hr : i.aresetn = true) (hd : i.wvalid = false) : (r.step w c i).slvReg3 = r.slvReg3 := by
  simp [Registers.step_eq hr,hd]

theorem slvReg3_written {r : Registers} {w : WriteChannel} {c : BitVec 32} {i : Input}
    (hr : i.aresetn = true) (hv : i.awvalid = true) (hd : i.wvalid = true)
    (haddr : i.awaddr = 12) (hstrb : i.wstrb = 15) : (r.step w c i).slvReg3 = i.wdata := by
  have hword : writeWord w i = 3 := by
    rw [writeWord,if_pos hv,haddr]
    rfl
  simp only [Registers.step_eq hr,hd,hword,hstrb,and_self,if_true]
  exact writeStrobed_all r.slvReg3 i.wdata

/-- The config word holds what was written, and the write channel waits for an
address, until the next write is presented. -/
theorem config_held {addr : BitVec 4} {data : BitVec 32} {p w b m : ℕ}
    (hcons : s.write.Consistent) (hr : ∀ k, (input k).aresetn = true)
    (h : WriteAccess s input addr data p w b) (haddr : addr = 12)
    (hquiet : ∀ k, w < k → k < m → (input k).awvalid = false ∧ (input k).wvalid = false)
    (n : ℕ) (hn : w+1 ≤ n) (hm : n ≤ m) :
    (run (step false) s input n).regs.slvReg3 = data ∧
      (run (step false) s input n).write.stateWrite = .waddr := by
  induction n, hn using Nat.le_induction with
  | base =>
      rcases h.presented w h.start le_rfl with ⟨hv,hd,ha,hdata,hstrb⟩
      have hs := WriteChannel.stateWrite_of_awready (write_consistent false input hcons w) h.taken.1
      rw [run_succ,step_regs,step_write]
      rw [slvReg3_written (hr w) hv hd (ha.trans haddr) hstrb]
      exact ⟨hdata,stateWrite_taken (hr w) hs h.taken.1 hv hd⟩
  | succ n hn ih =>
      rcases ih (by omega) with ⟨hreg,hs⟩
      rcases hquiet n (by omega) (by omega) with ⟨hv,hd⟩
      rw [run_succ,step_regs,step_write,slvReg3_quiet (hr n) hd]
      exact ⟨hreg,stateWrite_quiet (hr n) hs hv⟩

theorem second_taken_at_once {set clear : BitVec 32} {t : Schedule} (hcons : s.write.Consistent)
    (hr : ∀ k, (input k).aresetn = true) (h : ClearThenRead s input set clear t) :
    t.w2 = t.p2 := by
  have hlater := h.first.later
  have hafter := h.secondAfter
  have hs := (config_held hcons hr h.first rfl (m := t.p2)
    (fun k hk hkm => h.quietWrite k (Or.inr (Or.inl ⟨hk,hkm⟩))) t.p2 (by omega) le_rfl).2
  have hready := write_consistent false input hcons t.p2
  simp only [WriteChannel.Consistent,hs] at hready
  by_contra hne
  have hstart := h.second.start
  exact h.second.refused t.p2 le_rfl (by omega) hready

theorem araddr_held {addr : BitVec 4} {p a r : ℕ} (hcons : s.read.Consistent)
    (hr : ∀ k, (input k).aresetn = true) (h : ReadAccess s input addr p a r)
    (hquiet : ∀ k, a < k → k ≤ r → (input k).arvalid = false)
    (n : ℕ) (hn : a+1 ≤ n) (hnr : n ≤ r) : (run (step false) s input n).read.araddr = addr := by
  induction n, hn using Nat.le_induction with
  | base =>
      rcases h.presented a h.start le_rfl with ⟨hv,ha⟩
      have hready := read_consistent false input hcons a
      rw [run_succ,step_read,ReadChannel.step]
      cases hs : (run (step false) s input a).read.stateRead with
      | idle => simp [ReadChannel.Consistent,hs,h.taken] at hready
      | raddr => simp [hr,hv,h.taken,ha]
      | rdata => simp [ReadChannel.Consistent,hs,h.taken] at hready
  | succ n hn ih =>
      rw [run_succ,step_read,araddr_quiet (hr n) (hquiet n (by omega) (by omega))]
      exact ih (by omega)

/-- The port values of the core along a run of the slave. -/
def corePorts (s : State) (input : ℕ → Input) (n : ℕ) : PulseCounter.Input :=
  coreInput false (run (step false) s input n) (input n)

theorem corePorts_cleared (hb : ∀ k, (input k).resetBtn = false) (n : ℕ) :
    ((corePorts s input n).reset || (corePorts s input n).clear) =
      (run (step false) s input n).regs.slvReg3.getLsbD 0 := by
  simp [corePorts,coreInput,PulseCounter.Input.reset,PulseCounter.Input.clear,hb]

/-- A read of the count after `set_clear` returns the number of counted edges
after the second write, up to three edges before the data is taken. -/
theorem cleared_read_exact (s : State) (input : ℕ → Input) (set clear : BitVec 32) (t : Schedule)
    (hs : Reachable s) (hr : ∀ k, (input k).aresetn = true)
    (hb : ∀ k, (input k).resetBtn = false) (h : ClearThenRead s input set clear t) :
    t.w2+3 ≤ t.r ∧ (rdata (run (step false) s input t.r)).toNat =
      (PulseTally.countedEdges s.core (corePorts s input) t.w2 (t.r-3)).card % 2^32 := by
  have hwrite : s.write.Consistent := by
    rcases hs with ⟨history,n,rfl⟩
    exact write_consistent false history write_powerUp n
  have hread : s.read.Consistent := by
    rcases hs with ⟨history,n,rfl⟩
    exact read_consistent false history read_powerUp n
  have hlen : t.w2+3 ≤ t.r := by
    have h1 := h.second.later
    have h2 := h.readAfter
    have h3 := h.read.start
    have h4 := h.read.later
    omega
  have hset : (run (step false) s input t.w2).regs.slvReg3 = set := by
    have hlater := h.first.later
    have hafter := h.secondAfter
    rw [second_taken_at_once hwrite hr h]
    exact (config_held hwrite hr h.first rfl (m := t.p2)
      (fun k hk hkm => h.quietWrite k (Or.inr (Or.inl ⟨hk,hkm⟩))) t.p2 (by omega) le_rfl).1
  have hclear : ∀ k, t.w2 < k → k ≤ t.r → (run (step false) s input k).regs.slvReg3 = clear := by
    intro k hk hkr
    exact (config_held hwrite hr h.second rfl (m := t.r)
      (fun j hj hjr => h.quietWrite j (Or.inr (Or.inr ⟨hj,by omega⟩))) k hk hkr).1
  have haddr := araddr_held hread hr h.read
    (fun k hk hkr => h.quietRead k (Or.inr ⟨hk,hkr⟩)) t.r h.read.later le_rfl
  have hcount := @PulseTally.pulseCount_eq_card s.core (corePorts s input) t.w2 (t.r-3) (by omega)
    (by rw [corePorts_cleared hb,hset]; exact h.setBit)
    (fun k hk hkr => by rw [corePorts_cleared hb,hclear k hk (by omega)]; exact h.clearBit)
  have hdata : rdata (run (step false) s input t.r) =
      (run (step false) s input (t.r-3+1)).core.pulseCount := by
    rw [← slvReg0_eq false hr (t.r-3+1),show t.r-3+1+2 = t.r by omega,rdata,haddr]
    rfl
  refine ⟨hlen,?_⟩
  rw [hdata,core_run,← BitVec.toNat_ofNat,← hcount]
  rfl

/-- Writes of one and zero to the config word at edges one and three, a read of
the count at edge five whose data is taken at edge twelve. COUNT_SIG is high in
cycles two, six, seven and ten. -/
def clearThenRead (n : ℕ) : Input where
  aresetn := true
  resetBtn := false
  countSig := decide (n = 2 ∨ n = 6 ∨ n = 7 ∨ n = 10)
  triggerSig := false
  awaddr := 12
  awvalid := decide (n = 1 ∨ n = 3)
  wdata := if n ≤ 1 then 1 else 0
  wstrb := 15
  wvalid := decide (n = 1 ∨ n = 3)
  bready := true
  araddr := 0
  arvalid := decide (n = 5)
  rready := decide (n = 12)

/-- A write presented for a single edge and answered at the next one. -/
theorem writeAccess_once {w : ℕ} {addr : BitVec 4} {data : BitVec 32}
    (hin : (input w).awvalid = true ∧ (input w).wvalid = true ∧ (input w).awaddr = addr ∧
      (input w).wdata = data ∧ (input w).wstrb = 15)
    (htaken : (run (step false) s input w).write.awready = true ∧
      (run (step false) s input w).write.wready = true)
    (hans : (run (step false) s input (w+1)).write.bvalid = true ∧ (input (w+1)).bready = true) :
    WriteAccess s input addr data w w (w+1) where
  start := le_rfl
  presented := by
    intro k hk hkw
    obtain rfl : k = w := by omega
    exact hin
  refused := by omega
  taken := htaken
  later := Nat.lt_succ_self w
  pending := by omega
  answered := hans

theorem clearThenRead_read : ReadAccess powerUp clearThenRead 0 5 5 12 where
  start := le_rfl
  presented := by
    intro k hk hka
    obtain rfl : k = 5 := by omega
    decide
  refused := by omega
  taken := by decide
  later := by decide
  pending := by
    intro k hk hkr h
    have hr : k = 12 := by simpa [clearThenRead] using h.2
    omega
  answered := by decide

theorem clearThenRead_access :
    ClearThenRead powerUp clearThenRead 1 0 ⟨1,1,2,3,3,4,5,5,12⟩ where
  setBit := rfl
  clearBit := rfl
  first := writeAccess_once (by decide) (by decide) (by decide)
  second := writeAccess_once (by decide) (by decide) (by decide)
  read := clearThenRead_read
  secondAfter := by decide
  readAfter := by decide
  quietWrite := by
    intro k hk
    have hne : k ≠ 1 ∧ k ≠ 3 := by simp only at hk; omega
    simp [clearThenRead,hne]
  quietRead := by
    intro k hk
    have hne : k ≠ 5 := by simp only at hk; omega
    simp [clearThenRead,hne]

/-- The pulse before the second write is not in the value returned, nor is the
one in the last three edges. -/
theorem cleared_read_exact_clearThenRead :
    rdata (run (step false) powerUp clearThenRead 12) = 1 ∧
      (rdata (run (step false) powerUp clearThenRead 12)).toNat =
        (PulseTally.countedEdges powerUp.core (corePorts powerUp clearThenRead) 3 9).card % 2^32 :=
  ⟨by decide,(cleared_read_exact powerUp clearThenRead 1 0 ⟨1,1,2,3,3,4,5,5,12⟩
    ⟨clearThenRead,0,rfl⟩ (fun _ => rfl) (fun _ => rfl) clearThenRead_access).2⟩

end FpgaTest.BusAccess
