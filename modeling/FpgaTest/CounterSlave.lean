import FpgaTest.PulseCounter

/-!
# The register slave around the pulse counter

The registers of `pulse_counter_slave_lite_v1_0_S00_AXI.v`: the write channel,
the four memory-mapped words, the read channel and the embedded counter core.
The word at offset zero is refreshed from COUNT_DATA at every edge and cannot
be written; the other three are written whenever WVALID is high, whatever the
state of the write machine, and are the TRIGGER_DLY, TRIGGER_WIDTH and
CONFIG_REG of the core.

The core's RESET_N is connected to `!AXI_ARESETN`, a name the module does not
declare. It is an implicit net without a driver, so its constant value is the
parameter `net` of the step function. The response codes are always zero and
are left out.
-/
namespace FpgaTest.CounterSlave
open ClockedMachine

structure Input where
  aresetn : Bool
  resetBtn : Bool
  countSig : Bool
  triggerSig : Bool
  awaddr : BitVec 4
  awvalid : Bool
  wdata : BitVec 32
  wstrb : BitVec 4
  wvalid : Bool
  bready : Bool
  araddr : BitVec 4
  arvalid : Bool
  rready : Bool
  deriving DecidableEq, Repr

inductive WriteState where
  | idle | waddr | wdata
  deriving DecidableEq, Repr

inductive ReadState where
  | idle | raddr | rdata
  deriving DecidableEq, Repr

structure WriteChannel where
  awready : Bool
  wready : Bool
  bvalid : Bool
  awaddr : BitVec 4
  stateWrite : WriteState
  deriving DecidableEq, Repr

structure ReadChannel where
  arready : Bool
  rvalid : Bool
  araddr : BitVec 4
  stateRead : ReadState
  deriving DecidableEq, Repr

structure Registers where
  slvReg0 : BitVec 32
  slvReg1 : BitVec 32
  slvReg2 : BitVec 32
  slvReg3 : BitVec 32
  deriving DecidableEq, Repr

structure State where
  write : WriteChannel
  regs : Registers
  read : ReadChannel
  core : PulseCounter.State
  deriving DecidableEq, Repr

/-- Address bits 3:2, the index of a word. -/
def word (addr : BitVec 4) : BitVec 2 := addr.extractLsb' 2 2

/-- The response is withdrawn once the master has taken it. -/
def WriteChannel.respond (w : WriteChannel) (i : Input) : Bool :=
  if i.bready && w.bvalid then false else w.bvalid

def WriteChannel.step (w : WriteChannel) (i : Input) : WriteChannel :=
  if i.aresetn = false then ⟨false,false,false,0,.idle⟩
  else match w.stateWrite with
  | .idle => { w with awready := true, wready := true, stateWrite := .waddr }
  | .waddr =>
      if i.awvalid && w.awready then
        if i.wvalid then
          { w with awaddr := i.awaddr, awready := true, bvalid := true, stateWrite := .waddr }
        else
          { w with
            awaddr := i.awaddr
            awready := false
            bvalid := w.respond i
            stateWrite := .wdata }
      else { w with bvalid := w.respond i }
  | .wdata =>
      if i.wvalid then { w with awready := true, bvalid := true, stateWrite := .waddr }
      else { w with bvalid := w.respond i }

/-- Byte `b` of a word under the write strobes. -/
def strobedByte (old data : BitVec 32) (strb : BitVec 4) (b : ℕ) : BitVec 8 :=
  if strb.getLsbD b then data.extractLsb' (8*b) 8 else old.extractLsb' (8*b) 8

def writeStrobed (old data : BitVec 32) (strb : BitVec 4) : BitVec 32 :=
  strobedByte old data strb 3 ++ strobedByte old data strb 2 ++ strobedByte old data strb 1 ++
    strobedByte old data strb 0

/-- The word that a write at this edge is directed to. -/
def writeWord (w : WriteChannel) (i : Input) : BitVec 2 :=
  if i.awvalid then word i.awaddr else word w.awaddr

def Registers.step (r : Registers) (w : WriteChannel) (countData : BitVec 32) (i : Input) :
    Registers :=
  if i.aresetn = false then ⟨0,0,0,0⟩
  else
    { slvReg0 := countData
      slvReg1 := if i.wvalid = true ∧ writeWord w i = 1 then writeStrobed r.slvReg1 i.wdata i.wstrb
        else r.slvReg1
      slvReg2 := if i.wvalid = true ∧ writeWord w i = 2 then writeStrobed r.slvReg2 i.wdata i.wstrb
        else r.slvReg2
      slvReg3 := if i.wvalid = true ∧ writeWord w i = 3 then writeStrobed r.slvReg3 i.wdata i.wstrb
        else r.slvReg3 }

/-- The reset branch leaves the read address as it is. -/
def ReadChannel.step (r : ReadChannel) (i : Input) : ReadChannel :=
  if i.aresetn = false then { r with arready := false, rvalid := false, stateRead := .idle }
  else match r.stateRead with
  | .idle => { r with arready := true, stateRead := .raddr }
  | .raddr =>
      if i.arvalid && r.arready then ⟨false,true,i.araddr,.rdata⟩ else r
  | .rdata =>
      if r.rvalid && i.rready then { r with arready := true, rvalid := false, stateRead := .raddr }
      else r

/-- S_AXI_RDATA. -/
def rdata (s : State) : BitVec 32 :=
  if word s.read.araddr = 0 then s.regs.slvReg0
  else if word s.read.araddr = 1 then s.regs.slvReg1
  else if word s.read.araddr = 2 then s.regs.slvReg2
  else if word s.read.araddr = 3 then s.regs.slvReg3
  else 0

/-- The port connections of the `myCounter` instance. -/
def coreInput (net : Bool) (s : State) (i : Input) : PulseCounter.Input where
  resetN := !net
  resetBtn := i.resetBtn
  countSig := i.countSig
  triggerSig := i.triggerSig
  triggerDly := s.regs.slvReg1
  triggerWidth := s.regs.slvReg2
  configReg := s.regs.slvReg3

def step (net : Bool) (s : State) (i : Input) : State where
  write := s.write.step i
  regs := s.regs.step s.write s.core.countData i
  read := s.read.step i
  core := PulseCounter.step s.core (coreInput net s i)

/-- Register contents after configuration of the device. -/
def powerUp : State :=
  ⟨⟨false,false,false,0,.idle⟩,⟨0,0,0,0⟩,⟨false,false,0,.idle⟩,PulseCounter.powerUp⟩

@[simp] theorem step_write (net : Bool) (s : State) (i : Input) :
    (step net s i).write = s.write.step i := rfl
@[simp] theorem step_regs (net : Bool) (s : State) (i : Input) :
    (step net s i).regs = s.regs.step s.write s.core.countData i := rfl
@[simp] theorem step_read (net : Bool) (s : State) (i : Input) :
    (step net s i).read = s.read.step i := rfl
@[simp] theorem step_core (net : Bool) (s : State) (i : Input) :
    (step net s i).core = PulseCounter.step s.core (coreInput net s i) := rfl

theorem core_run (net : Bool) (s : State) (input : ℕ → Input) (n : ℕ) :
    (run (step net) s input n).core = run PulseCounter.step s.core
      (fun k => coreInput net (run (step net) s input k) (input k)) n := by
  induction n with
  | zero => rfl
  | succ n ih => rw [run_succ,run_succ,step_core,ih]

/-- The handshake outputs of the write machine are determined by its state,
the pending response apart. -/
def WriteChannel.Consistent (w : WriteChannel) : Prop :=
  match w.stateWrite with
  | .idle => w.awready = false ∧ w.wready = false ∧ w.bvalid = false
  | .waddr => w.awready = true ∧ w.wready = true
  | .wdata => w.awready = false ∧ w.wready = true

def ReadChannel.Consistent (r : ReadChannel) : Prop :=
  match r.stateRead with
  | .idle => r.arready = false ∧ r.rvalid = false
  | .raddr => r.arready = true ∧ r.rvalid = false
  | .rdata => r.arready = false ∧ r.rvalid = true

theorem WriteChannel.consistent_step {w : WriteChannel} (i : Input) (h : w.Consistent) :
    (w.step i).Consistent := by
  unfold WriteChannel.Consistent at h
  cases hr : i.aresetn with
  | false => simp [WriteChannel.step,WriteChannel.Consistent,hr]
  | true =>
      cases hw : w.stateWrite with
      | idle => simp [WriteChannel.step,WriteChannel.Consistent,hr,hw]
      | waddr =>
          simp only [hw] at h
          cases hv : i.awvalid <;> cases hd : i.wvalid <;>
            simp [WriteChannel.step,WriteChannel.Consistent,hr,hw,h,hv,hd]
      | wdata =>
          simp only [hw] at h
          cases hd : i.wvalid <;> simp [WriteChannel.step,WriteChannel.Consistent,hr,hw,h,hd]

theorem ReadChannel.consistent_step {r : ReadChannel} (i : Input) (h : r.Consistent) :
    (r.step i).Consistent := by
  unfold ReadChannel.Consistent at h
  cases hr : i.aresetn with
  | false => simp [ReadChannel.step,ReadChannel.Consistent,hr]
  | true =>
      cases hs : r.stateRead with
      | idle =>
          simp only [hs] at h
          simp [ReadChannel.step,ReadChannel.Consistent,hr,hs,h]
      | raddr =>
          simp only [hs] at h
          cases hv : i.arvalid <;> simp [ReadChannel.step,ReadChannel.Consistent,hr,hs,h,hv]
      | rdata =>
          simp only [hs] at h
          cases hv : i.rready <;> simp [ReadChannel.step,ReadChannel.Consistent,hr,hs,h,hv]

theorem write_consistent (net : Bool) {s : State} (input : ℕ → Input) (h : s.write.Consistent)
    (n : ℕ) : (run (step net) s input n).write.Consistent := by
  induction n with
  | zero => exact h
  | succ n ih => exact WriteChannel.consistent_step (input n) ih

theorem read_consistent (net : Bool) {s : State} (input : ℕ → Input) (h : s.read.Consistent)
    (n : ℕ) : (run (step net) s input n).read.Consistent := by
  induction n with
  | zero => exact h
  | succ n ih => exact ReadChannel.consistent_step (input n) ih

theorem write_powerUp : powerUp.write.Consistent := ⟨rfl,rfl,rfl⟩

theorem read_powerUp : powerUp.read.Consistent := ⟨rfl,rfl⟩

theorem ReadChannel.Consistent.stateRead_of_rvalid {r : ReadChannel} (h : r.Consistent)
    (hv : r.rvalid = true) : r.stateRead = .rdata := by
  unfold ReadChannel.Consistent at h
  cases hs : r.stateRead with
  | idle => simp [hs,hv] at h
  | raddr => simp [hs,hv] at h
  | rdata => rfl

theorem Registers.step_eq {i : Input} (hr : i.aresetn = true) (r : Registers) (w : WriteChannel)
    (countData : BitVec 32) :
    r.step w countData i =
      { slvReg0 := countData
        slvReg1 := if i.wvalid = true ∧ writeWord w i = 1 then
          writeStrobed r.slvReg1 i.wdata i.wstrb else r.slvReg1
        slvReg2 := if i.wvalid = true ∧ writeWord w i = 2 then
          writeStrobed r.slvReg2 i.wdata i.wstrb else r.slvReg2
        slvReg3 := if i.wvalid = true ∧ writeWord w i = 3 then
          writeStrobed r.slvReg3 i.wdata i.wstrb else r.slvReg3 } := by
  rw [Registers.step,if_neg (by rw [hr]; exact Bool.noConfusion)]

/-- With all strobes set a write replaces the word. -/
theorem writeStrobed_all (old data : BitVec 32) : writeStrobed old data 15 = data := by
  have h0 : strobedByte old data 15 0 = data.extractLsb' 0 8 := rfl
  have h1 : strobedByte old data 15 1 = data.extractLsb' 8 8 := rfl
  have h2 : strobedByte old data 15 2 = data.extractLsb' 16 8 := rfl
  have h3 : strobedByte old data 15 3 = data.extractLsb' 24 8 := rfl
  rw [writeStrobed,h0,h1,h2,h3]
  apply BitVec.eq_of_getLsbD_eq
  intro i hi
  simp only [BitVec.getLsbD_append,BitVec.getLsbD_extractLsb']
  split_ifs with h8 h16 h24
  · simp [h8]
  · rw [show 8+(i-8) = i by omega]
    simp [h16]
  · rw [show 16+(i-8-8) = i by omega]
    simp [h24]
  · rw [show 24+(i-8-8-8) = i by omega]
    simp only [Bool.and_eq_right_iff_imp,decide_eq_true_eq]
    omega

end FpgaTest.CounterSlave
