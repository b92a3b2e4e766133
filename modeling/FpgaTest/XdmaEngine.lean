import FpgaTest.EventMachine
import Mathlib.Data.BitVec

/-!
# The engine and its transfer queue

The driver side of a memory-mapped engine: `transfer_queue`, `engine_start`,
`engine_service` with the functions it calls, the monitor of the poll mode, and
the abort of a transfer that timed out. The engine itself is known by its
registers: it executes the chain it was started with, counts the descriptors, and
goes idle at the end of the chain, at an error, or when the RUN bit is cleared. In
poll mode it also writes the count, and at an error the error flag, to a word in
the host's memory; only the monitor clears this word.

Queueing, the progress of the engine and the service routine are events in any
order; the poll thread serves a word as soon as it has read it. The outputs of a
run are the executed descriptors, the errors of the engine, and the states that
the transfers are finished with. Streaming, cyclic transfers, performance runs and
the shutdown flags are left out.
-/
namespace FpgaTest.XdmaEngine

/-- A transfer in the queue, with the number of descriptors of its chain. -/
structure Transfer where
  id : ℕ
  descNum : BitVec 32
  fits : descNum.toNat ≤ 2048
  deriving DecidableEq

inductive TransferState where
  | submitted | completed | failed | aborted
  deriving DecidableEq, Repr

/-- The BUSY bit, and whether one of the error bits of the direction is set. -/
structure Status where
  busy : Bool
  error : Bool
  deriving DecidableEq, Repr

structure Engine where
  running : Bool
  status : Status
  descDequeued : BitVec 32
  transferList : List Transfer
  deriving DecidableEq

structure Hardware where
  run : Bool
  chain : ℕ
  left : ℕ
  completedDescCount : BitVec 32
  status : Status
  deriving DecidableEq, Repr

/-- The driver, the registers, and the poll word. -/
structure State where
  engine : Engine
  hw : Hardware
  pollWb : BitVec 32
  deriving DecidableEq

inductive Out where
  | desc (id index : ℕ)
  | fault (id : ℕ)
  | done (id : ℕ) (state : TransferState)
  deriving DecidableEq, Repr

/-- What the IP core does when RUN is set with the address of a chain, when RUN is
cleared, and at an error. A start clears the count and the error bits; without RUN
no descriptor is begun, and a core that was at rest keeps its count and its error
bits; an error ends BUSY. -/
class Ip where
  start : Hardware → Transfer → Hardware
  stop : Hardware → Hardware
  fault : Hardware → Hardware
  start_eq : ∀ h t, start h t = ⟨true,t.id,t.descNum.toNat,0,⟨true,false⟩⟩
  stop_run : ∀ h, (stop h).run = false
  stop_count : ∀ h, h.status.busy = false → (stop h).completedDescCount = h.completedDescCount
  stop_error : ∀ h, h.status.busy = false → (stop h).status.error = h.status.error
  fault_eq : ∀ h, fault h = { h with status := ⟨false,true⟩ }

/-- A core that stops at once. -/
@[reducible] def Ip.immediate : Ip where
  start _ t := ⟨true,t.id,t.descNum.toNat,0,⟨true,false⟩⟩
  stop h := { h with run := false, status := { h.status with busy := false } }
  fault h := { h with status := ⟨false,true⟩ }
  start_eq _ _ := rfl
  stop_run _ := rfl
  stop_count _ _ := rfl
  stop_error _ _ := rfl
  fault_eq _ := rfl

def Hardware.exec (h : Hardware) : Hardware :=
  { h with left := h.left - 1, completedDescCount := h.completedDescCount + 1 }

def Hardware.idle (h : Hardware) : Hardware :=
  { h with status := { h.status with busy := false } }

/-- Reading `status_rc` clears the error bits. -/
def engineStatusRead (clear : Bool) (s : State) : State :=
  { s with
    engine := { s.engine with status := s.hw.status }
    hw := if clear then { s.hw with status := { s.hw.status with error := false } } else s.hw }

/-- The transfers that a count of descriptors runs past, all but the last. -/
def engineServiceTransferList : List Transfer → BitVec 32 → BitVec 32 →
    List Transfer × BitVec 32 × BitVec 32 × List Out
  | [], count, dequeued => ([],count,dequeued,[])
  | t::ts, count, dequeued =>
      if t.descNum < count then
        let r := engineServiceTransferList ts (count - t.descNum) (dequeued + t.descNum)
        (r.1,r.2.1,r.2.2.1,.done t.id .completed::r.2.2.2)
      else (t::ts,count,dequeued,[])

/-- WB_COUNT_MASK -/
def wbCountMask : BitVec 32 := 0x00ffffff

/-- WB_ERR_MASK -/
def wbErrMask : BitVec 32 := 1#32 <<< 31

/-- What the engine writes to the poll word. -/
def writeback (h : Hardware) : BitVec 32 :=
  h.completedDescCount ||| (if h.status.error then wbErrMask else 0#32)

/-- One look of the monitor, which clears the word; `none` if it goes on looking. -/
def engineServiceWbMonitor (expectedWb : BitVec 32) (timedOut : Bool) (s : State) :
    State × Option (BitVec 32) :=
  if expectedWb = 0 then (s,some 0)
  else
    let descWb := s.pollWb
    let s := { s with pollWb := 0 }
    if descWb.getLsbD 31 = true then (s,some descWb)
    else if expectedWb ≤ descWb then (s,some descWb)
    else if timedOut then
      (s,some (if expectedWb < descWb &&& wbCountMask then expectedWb ||| wbErrMask else descWb))
    else (s,none)

/-- The list gives up the transfer only if it is the first one. -/
def transferAbort (s : State) (t : Transfer) : State :=
  match s.engine.transferList with
  | [] => s
  | head::ts =>
      if head.id = t.id then { s with engine := { s.engine with transferList := ts } } else s

inductive Event where
  | queue (t : Transfer)
  | exec | idle | fault | writeback | service | timeout
  | poll (expected : BitVec 32) (timedOut : Bool)

section Driver
variable [Ip]

def xdmaEngineStop (s : State) : State :=
  { s with engine := { s.engine with running := false }, hw := Ip.stop s.hw }

/-- The first transfer of the queue is started. -/
def engineStart (s : State) : State :=
  if s.engine.running then s
  else match s.engine.transferList with
  | [] => s
  | t::_ =>
      let started := engineStatusRead false
        { s with engine := { s.engine with descDequeued := 0 }, hw := Ip.start s.hw t }
      { started with engine := { started.engine with running := true } }

def transferQueue (s : State) (t : Transfer) : State :=
  if t.descNum = 0 then s
  else
    let queued := { s with
      engine := { s.engine with transferList := s.engine.transferList ++ [t] } }
    if queued.engine.running then queued else engineStart queued

/-- The transfer that the engine stopped on. BUSY is not looked at. -/
def engineServiceFinalTransfer (s : State) (count : BitVec 32) : State × List Out :=
  match s.engine.transferList with
  | [] => (s,[])
  | t::ts =>
      if s.engine.status.error then
        let stopped := xdmaEngineStop s
        ({ stopped with engine := { stopped.engine with transferList := ts } },
          [.done t.id .failed])
      else
        ({ s with
          engine := { s.engine with
            transferList := ts
            descDequeued := s.engine.descDequeued + t.descNum } },
          [.done t.id (if count < t.descNum then .failed else .completed)])

def engineServiceResume (s : State) : State :=
  if s.engine.running = false then
    if s.engine.transferList = [] then s else engineStart s
  else if s.engine.transferList = [] then xdmaEngineStop s
  else s

/-- The part of `engine_service` that knows the number of completed descriptors. -/
def engineServiceCount (s : State) (descCount : BitVec 32) : State × List Out :=
  if descCount = 0 then (s,[])
  else
    let r := engineServiceTransferList s.engine.transferList (descCount - s.engine.descDequeued)
      s.engine.descDequeued
    let f := engineServiceFinalTransfer
      { s with engine := { s.engine with transferList := r.1, descDequeued := r.2.2.1 } } r.2.1
    (engineServiceResume f.1,r.2.2.2 ++ f.2)

/-- `desc_writeback` is zero when the service runs for an interrupt. -/
def engineService (s : State) (descWriteback : BitVec 32) : State × List Out :=
  let descCount := descWriteback &&& wbCountMask
  let errFlag := descWriteback.getLsbD 31
  if s.engine.running = false then (engineStatusRead true s,[])
  else
    let s := if descCount = 0 ∨ errFlag = true then engineStatusRead true s else s
    let s := if s.engine.status.busy = false ∨ descCount ≠ 0 then xdmaEngineStop s else s
    engineServiceCount s (if descCount = 0 then s.hw.completedDescCount else descCount)

def engineServicePoll (expectedDescCount : BitVec 32) (timedOut : Bool) (s : State) :
    State × List Out :=
  let r := engineServiceWbMonitor expectedDescCount timedOut s
  match r.2 with
  | none => (r.1,[])
  | some descWb => if descWb = 0 then (r.1,[]) else engineService r.1 descWb

/-- The poll thread looks for the count of the first transfer. -/
def cmplStatusProc (s : State) : State × List Out :=
  match s.engine.transferList with
  | [] => (s,[])
  | t::_ => engineServicePoll t.descNum false s

/-- A transfer that times out is the first of the queue. The threshold of a look at the
word may be that of a transfer that has left the queue meanwhile. -/
def step (pollMode : Bool) (s : State) : Event → Option (State × List Out)
  | .queue t => some (transferQueue s t,[])
  | .exec =>
      if s.hw.run = true ∧ s.hw.status.busy = true ∧ 0 < s.hw.left then
        some ({ s with hw := s.hw.exec },[.desc s.hw.chain s.hw.completedDescCount.toNat])
      else none
  | .idle =>
      if s.hw.run = true ∧ s.hw.status.busy = true ∧ s.hw.left = 0 then
        some ({ s with hw := s.hw.idle },[])
      else none
  | .fault =>
      if s.hw.run = true ∧ s.hw.status.busy = true then
        some ({ s with
          hw := Ip.fault s.hw
          pollWb := if pollMode then writeback (Ip.fault s.hw) else s.pollWb },
          [.fault s.hw.chain])
      else none
  | .writeback =>
      if pollMode = true ∧ s.hw.run = true ∧ s.hw.completedDescCount ≠ 0 then
        some ({ s with pollWb := writeback s.hw },[])
      else none
  | .service => some (if pollMode then cmplStatusProc s else engineService s 0)
  | .poll expected timedOut =>
      if pollMode then some (engineServicePoll expected timedOut s) else none
  | .timeout =>
      match s.engine.transferList with
      | [] => none
      | t::_ =>
          some (xdmaEngineStop (transferAbort (engineStatusRead false s) t),[.done t.id .aborted])

end Driver

/-- The engine before the first transfer. -/
def idle : State := ⟨⟨false,⟨false,false⟩,0,[]⟩,⟨false,0,0,0,⟨false,false⟩⟩,0⟩

def descs (id k : ℕ) : List Out := (List.range k).map (Out.desc id)

/-- A number of starts that failed before their first descriptor, and one that
executed some. -/
def attempt (id lost executed : ℕ) (faulted : Bool) : List Out :=
  List.replicate lost (.fault id) ++ descs id executed ++ (if faulted then [.fault id] else [])

/-- A transfer from its start to the state it is finished with. -/
structure Entry where
  transfer : Transfer
  lost : ℕ
  executed : ℕ
  faulted : Bool
  state : TransferState

def Entry.outs (e : Entry) : List Out :=
  attempt e.transfer.id e.lost e.executed e.faulted ++ [.done e.transfer.id e.state]

/-- What the state of a finished transfer says. The count that the poll thread has served
may be older than that of the engine. -/
def Entry.Sound (pollMode : Bool) (e : Entry) : Prop :=
  e.executed ≤ e.transfer.descNum.toNat ∧
    match e.state with
    | .submitted => False
    | .completed => e.executed = e.transfer.descNum.toNat ∧ e.faulted = false
    | .failed => e.faulted = true ∨ pollMode = true
    | .aborted => True

/-- The engine executes the first transfer of the queue; `tail` is what has been put out
since the transfer before it. The poll word holds no count of another transfer. -/
structure Running (s : State) (t : Transfer) (rest : List Transfer) (tail : List Out) : Prop where
  running : s.engine.running = true
  list : s.engine.transferList = t::rest
  dequeued : s.engine.descDequeued = 0
  clean : s.engine.status.error = false
  run : s.hw.run = true
  chain : s.hw.chain = t.id
  count : s.hw.completedDescCount.toNat + s.hw.left = t.descNum.toNat
  busy : s.hw.status.busy = true → s.hw.status.error = false
  ended : s.hw.status.busy = false → s.hw.status.error = false → s.hw.left = 0
  word : s.hw.status.error = false → s.pollWb.toNat ≤ s.hw.completedDescCount.toNat
  flag : s.hw.status.error = true → s.pollWb = 0 ∨ s.pollWb = writeback s.hw
  tail : ∃ lost, tail = attempt t.id lost s.hw.completedDescCount.toNat s.hw.status.error

structure Stopped (s : State) (tail : List Out) : Prop where
  running : s.engine.running = false
  run : s.hw.run = false
  word : s.pollWb = 0
  tail : tail = [] ∨
    ∃ t rest lost, s.engine.transferList = t::rest ∧ tail = attempt t.id lost 0 false

structure Inv (pollMode : Bool) (s : State) (tail : List Out) : Prop where
  nonempty : ∀ t ∈ s.engine.transferList, t.descNum ≠ 0
  quiet : pollMode = false → s.pollWb = 0
  engine : Stopped s tail ∨ ∃ t rest, Running s t rest tail

/-- The engine is not in the middle of a chain. -/
def Calm (s : State) : Prop := s.hw.status.busy = false ∨ s.hw.completedDescCount = 0

instance (s : State) : Decidable (Calm s) := inferInstanceAs (Decidable (_ ∨ _))

/-- Interrupts are served only when the engine is not in the middle of a chain, and no
transfer times out while a count of it stands in the poll word. -/
def calmStep [Ip] (pollMode : Bool) (s : State) : Event → Option (State × List Out)
  | .service => if pollMode = true ∨ Calm s then step pollMode s .service else none
  | .timeout => if s.pollWb = 0 then step pollMode s .timeout else none
  | e => step pollMode s e

/-- The transfers that an event adds to the queue. -/
def queuedBy : Event → List Transfer
  | .queue t => if t.descNum = 0 then [] else [t]
  | _ => []

section Outputs
variable {pollMode : Bool} {s : State} {t : Transfer} {rest : List Transfer} {tail : List Out}

@[simp] theorem attempt_zero (id : ℕ) : attempt id 0 0 false = [] := rfl

theorem attempt_desc (id lost k : ℕ) :
    attempt id lost k false ++ [.desc id k] = attempt id lost (k+1) false := by
  simp [attempt,descs,List.range_succ]

theorem attempt_fault (id lost k : ℕ) :
    attempt id lost k false ++ [.fault id] = attempt id lost k true := by
  simp [attempt]

theorem attempt_lost (id lost : ℕ) : attempt id lost 0 true = attempt id (lost+1) 0 false := by
  simp [attempt,descs,List.replicate_succ']

theorem word_eq {w : BitVec 32} (hw : w.toNat ≤ 2048) :
    w &&& wbCountMask = w ∧ w.getLsbD 31 = false := by
  constructor
  · apply BitVec.eq_of_toNat_eq
    rw [BitVec.toNat_and]
    exact Nat.and_two_pow_sub_one_of_lt_two_pow (n := 24) (by omega)
  · rw [← BitVec.testBit_toNat]
    exact Nat.testBit_lt_two_pow (by omega)

theorem writeback_clean (herr : s.hw.status.error = false) :
    writeback s.hw = s.hw.completedDescCount := by
  rw [writeback,herr,if_neg Bool.false_ne_true,BitVec.or_zero]

theorem writeback_flag (herr : s.hw.status.error = true) :
    (writeback s.hw).getLsbD 31 = true := by
  rw [writeback,herr,if_pos rfl,BitVec.getLsbD_or]
  exact Bool.or_true _

theorem writeback_count (hfits : s.hw.completedDescCount.toNat ≤ 2048)
    (herr : s.hw.status.error = true) :
    writeback s.hw &&& wbCountMask = s.hw.completedDescCount := by
  have hflag : wbErrMask &&& wbCountMask = 0#32 := rfl
  rw [writeback,herr,if_pos rfl,BitVec.and_comm,BitVec.and_or_distrib_left,
    BitVec.and_comm wbCountMask,BitVec.and_comm wbCountMask,hflag,(word_eq hfits).1,BitVec.or_zero]

theorem Inv.running_of_run (h : Inv pollMode s tail) (hrun : s.hw.run = true) :
    ∃ t rest, Running s t rest tail := by
  rcases h.engine with hs | hr
  · rw [hs.run] at hrun
    contradiction
  · exact hr

theorem Running.fits (hr : Running s t rest tail) : s.hw.completedDescCount.toNat ≤ 2048 := by
  have hcount := hr.count
  have hfits := t.fits
  omega

theorem Running.exec (hr : Running s t rest tail) (hb : s.hw.status.busy = true)
    (hleft : 0 < s.hw.left) : Running { s with hw := s.hw.exec } t rest
      (tail ++ [.desc s.hw.chain s.hw.completedDescCount.toNat]) := by
  rcases hr.tail with ⟨lost,htail⟩
  have hclean := hr.busy hb
  have hfits := hr.fits
  have hcount := hr.count
  have hword := hr.word hclean
  have hsucc : s.hw.exec.completedDescCount.toNat = s.hw.completedDescCount.toNat + 1 := by
    simp only [Hardware.exec]
    bv_omega
  refine { hr with count := ?_, tail := ⟨lost,?_⟩, ended := ?_, word := ?_, flag := ?_ }
  · rw [hsucc]
    simp only [Hardware.exec]
    omega
  · intro hf
    exact absurd (hb.symm.trans hf) (by decide)
  · intro _
    rw [hsucc]
    exact Nat.le_succ_of_le hword
  · intro hf
    exact absurd (hclean.symm.trans hf) (by decide)
  · rw [htail,hclean,hr.chain,hsucc,attempt_desc]
    exact congrArg (attempt t.id lost _) hclean.symm

theorem Running.idle (hr : Running s t rest tail) (hleft : s.hw.left = 0) :
    Running { s with hw := s.hw.idle } t rest tail :=
  { hr with busy := fun h => Bool.noConfusion h, ended := fun _ _ => hleft }

theorem Running.fault (hr : Running s t rest tail) (hb : s.hw.status.busy = true) {w : BitVec 32}
    (hw : w = 0 ∨ w = XdmaEngine.writeback { s.hw with status := ⟨false,true⟩ }) :
    Running { s with hw := { s.hw with status := ⟨false,true⟩ }, pollWb := w } t rest
      (tail ++ [.fault s.hw.chain]) := by
  rcases hr.tail with ⟨lost,htail⟩
  refine { hr with
    busy := fun h => Bool.noConfusion h
    ended := fun _ h => Bool.noConfusion h
    word := fun h => Bool.noConfusion h
    flag := fun _ => hw
    tail := ⟨lost,?_⟩ }
  rw [htail,hr.busy hb,hr.chain]
  exact attempt_fault t.id lost _

theorem Running.writeback (hr : Running s t rest tail) :
    Running { s with pollWb := XdmaEngine.writeback s.hw } t rest tail :=
  { hr with
    word := fun hclean => (congrArg BitVec.toNat (writeback_clean hclean)).le
    flag := fun _ => .inr rfl }

theorem Running.read (hr : Running s t rest tail) : Running { s with pollWb := 0 } t rest tail :=
  { hr with word := fun _ => Nat.zero_le _, flag := fun _ => .inl rfl }

/-- The engine at the start of a transfer. -/
def started (t : Transfer) (rest : List Transfer) (pollWb : BitVec 32) : State :=
  ⟨⟨true,⟨true,false⟩,0,t::rest⟩,⟨true,t.id,t.descNum.toNat,0,⟨true,false⟩⟩,pollWb⟩

theorem running_started {lost : ℕ} (htail : tail = attempt t.id lost 0 false) :
    Running (started t rest 0) t rest tail where
  running := rfl
  list := rfl
  dequeued := rfl
  clean := rfl
  run := rfl
  chain := rfl
  count := Nat.zero_add _
  busy _ := rfl
  ended h := Bool.noConfusion h
  word _ := le_rfl
  flag h := Bool.noConfusion h
  tail := ⟨lost,htail⟩

end Outputs

section Lemmas
variable [Ip] {pollMode : Bool} {s : State} {t : Transfer} {rest : List Transfer}
  {tail : List Out}

theorem engineStart_cons (hstop : s.engine.running = false)
    (hlist : s.engine.transferList = t::rest) : engineStart s = started t rest s.pollWb := by
  simp [engineStart,hstop,hlist,engineStatusRead,Ip.start_eq,started]

theorem engineStart_running (hstop : s.engine.running = false) (hword : s.pollWb = 0)
    (hlist : s.engine.transferList = t::rest) {lost : ℕ}
    (htail : tail = attempt t.id lost 0 false) : Running (engineStart s) t rest tail := by
  rw [engineStart_cons hstop hlist,hword]
  exact running_started htail

theorem transferQueue_empty (hstop : s.engine.running = false)
    (hempty : s.engine.transferList = []) (ht : t.descNum ≠ 0) :
    transferQueue s t = started t [] s.pollWb := by
  simp only [transferQueue,if_neg ht,hempty,List.nil_append,hstop,Bool.false_eq_true,if_false]
  rw [engineStart_cons rfl rfl]

theorem transferList_engineStart (s : State) :
    (engineStart s).engine.transferList = s.engine.transferList := by
  unfold engineStart
  split_ifs
  · rfl
  · cases h : s.engine.transferList <;> simp [engineStatusRead,h]

theorem pollWb_engineStart (s : State) : (engineStart s).pollWb = s.pollWb := by
  unfold engineStart
  split_ifs
  · rfl
  · cases s.engine.transferList <;> rfl

/-- With a transfer in the queue the engine executes, and without an error. -/
def Busy (s : State) : Prop :=
  s.engine.transferList = [] ∨ s.hw.run = true ∧ s.hw.status.error = false

theorem inv_resume (hstop : s.engine.running = false) (hrun : s.hw.run = false)
    (hword : s.pollWb = 0) (hne : ∀ t ∈ s.engine.transferList, t.descNum ≠ 0) :
    Inv pollMode (engineServiceResume s) [] ∧
      (engineServiceResume s).engine.transferList = s.engine.transferList ∧
      Busy (engineServiceResume s) := by
  cases hlist : s.engine.transferList with
  | nil =>
      have heq : engineServiceResume s = s := by simp [engineServiceResume,hstop,hlist]
      rw [heq]
      exact ⟨⟨hne,fun _ => hword,.inl ⟨hstop,hrun,hword,.inl rfl⟩⟩,hlist,.inl hlist⟩
  | cons t rest =>
      have heq : engineServiceResume s = engineStart s := by
        simp [engineServiceResume,hstop,hlist]
      have hstart := engineStart_running hstop hword hlist (attempt_zero t.id).symm
      have hclean : (engineStart s).hw.status.error = false := by
        rw [engineStart_cons hstop hlist]
        rfl
      rw [heq,transferList_engineStart]
      refine ⟨⟨?_,fun _ => (pollWb_engineStart s).trans hword,.inr ⟨t,rest,hstart⟩⟩,hlist,
        .inr ⟨hstart.run,hclean⟩⟩
      rw [transferList_engineStart]
      exact hne

/-- The state that the first transfer is finished with. -/
def verdict (error : Bool) (count descNum : BitVec 32) : TransferState :=
  if error then .failed else if count < descNum then .failed else .completed

/-- A stopped engine that has completed some descriptors of the first transfer:
the service finishes this transfer and starts the next one. -/
theorem engineServiceCount_stopped (pollMode : Bool) {count : BitVec 32}
    (hstop : s.engine.running = false) (hrun : s.hw.run = false) (hword : s.pollWb = 0)
    (hne : ∀ t ∈ s.engine.transferList, t.descNum ≠ 0)
    (hlist : s.engine.transferList = t::rest) (hdeq : s.engine.descDequeued = 0)
    (hcount : count ≠ 0) (hle : ¬ t.descNum < count) :
    ∃ s', engineServiceCount s count =
        (s',[.done t.id (verdict s.engine.status.error count t.descNum)]) ∧
      Inv pollMode s' [] ∧ s'.engine.transferList = rest ∧ Busy s' := by
  have hpass : engineServiceTransferList (t::rest) count 0 = (t::rest,count,0,[]) := if_neg hle
  rw [hlist] at hne
  have hne' : ∀ x ∈ rest, x.descNum ≠ 0 := fun x hx => hne x (List.mem_cons_of_mem _ hx)
  unfold engineServiceCount
  rw [if_neg hcount,hlist,hdeq,sub_zero,hpass]
  cases herr : s.engine.status.error with
  | true =>
      have hnext := @inv_resume _ pollMode
        ⟨⟨false,s.engine.status,0,rest⟩,Ip.stop s.hw,s.pollWb⟩ rfl (Ip.stop_run _) hword hne'
      refine ⟨_,?_,hnext⟩
      simp [engineServiceFinalTransfer,herr,xdmaEngineStop,verdict]
  | false =>
      have hnext := @inv_resume _ pollMode
        ⟨⟨false,s.engine.status,t.descNum,rest⟩,s.hw,s.pollWb⟩ rfl hrun hword hne'
      refine ⟨_,?_,hnext⟩
      simp [engineServiceFinalTransfer,herr,hstop,verdict]

end Lemmas

/-- One event: the tail goes on and the queue may grow at its end, or the first
transfer is finished and leaves the queue. -/
def Advances (pollMode : Bool) (s : State) (tail : List Out) (e : Event) (s' : State)
    (outs : List Out) : Prop :=
  (Inv pollMode s' (tail ++ outs) ∧
    s'.engine.transferList = s.engine.transferList ++ queuedBy e) ∨
  ∃ entry : Entry, entry.Sound pollMode ∧ tail ++ outs = entry.outs ∧ queuedBy e = [] ∧
    s.engine.transferList = entry.transfer::s'.engine.transferList ∧ Inv pollMode s' []

section Outcomes
variable {pollMode : Bool} {s : State} {t : Transfer} {rest : List Transfer} {tail : List Out}

theorem advances_lost {s2 : State} (e : Event) (hqueue : queuedBy e = [])
    (h : Inv pollMode s tail) (hr : Running s t rest tail)
    (hlist : s2.engine.transferList = s.engine.transferList)
    (hstop : s2.engine.running = false) (hrun : s2.hw.run = false) (hword : s2.pollWb = 0)
    (hcount : s.hw.completedDescCount = 0) (herr : s.hw.status.error = true) :
    Advances pollMode s tail e s2 [] := by
  refine .inl ⟨⟨hlist ▸ h.nonempty,fun _ => hword,.inl ⟨hstop,hrun,hword,.inr ?_⟩⟩,
    by rw [hlist,hqueue,List.append_nil]⟩
  rcases hr.tail with ⟨lost,htail⟩
  refine ⟨t,rest,lost+1,hlist.trans hr.list,?_⟩
  rw [htail,herr,hcount,List.append_nil]
  exact attempt_lost t.id lost

theorem advances_none (e : Event) (hqueue : queuedBy e = []) (h : Inv pollMode s tail) :
    Advances pollMode s tail e { s with pollWb := 0 } [] := by
  refine .inl ⟨⟨h.nonempty,fun _ => rfl,?_⟩,by rw [hqueue,List.append_nil]⟩
  rw [List.append_nil]
  rcases h.engine with hs | ⟨t,rest,hr⟩
  · exact .inl ⟨hs.running,hs.run,rfl,hs.tail⟩
  · exact .inr ⟨t,rest,hr.read⟩

theorem advances_same (e : Event) (hqueue : queuedBy e = []) (h : Inv pollMode s tail) :
    Advances pollMode s tail e s [] := by
  rw [Advances,hqueue,List.append_nil,List.append_nil]
  exact .inl ⟨h,rfl⟩

/-- What a look at the word finds: nothing, which is no error, or the whole word. -/
theorem monitor_cases (s : State) (expected : BitVec 32) (timedOut : Bool) :
    engineServiceWbMonitor expected timedOut s = (s,some 0) ∨
      (s.pollWb.getLsbD 31 = false ∧
        engineServiceWbMonitor expected timedOut s = ({ s with pollWb := 0 },none)) ∨
      engineServiceWbMonitor expected timedOut s = ({ s with pollWb := 0 },some s.pollWb) := by
  unfold engineServiceWbMonitor
  simp only
  split_ifs with hzero hflag hexpected htime hmore
  · exact .inl rfl
  · exact .inr (.inr rfl)
  · exact .inr (.inr rfl)
  · -- the count of the word is no more than the word
    have hle : (s.pollWb &&& wbCountMask).toNat ≤ s.pollWb.toNat := by
      rw [BitVec.toNat_and]
      exact Nat.and_le_left
    rw [BitVec.lt_def] at hmore
    rw [BitVec.le_def] at hexpected
    omega
  · exact .inr (.inr rfl)
  · exact .inr (.inl ⟨Bool.eq_false_iff.mpr hflag,rfl⟩)

end Outcomes

section Steps
variable [Ip] {pollMode : Bool} {s s' : State} {t : Transfer} {rest : List Transfer}
  {tail outs : List Out}

theorem advances_queue (h : Inv pollMode s tail) (t : Transfer) :
    Advances pollMode s tail (.queue t) (transferQueue s t) [] := by
  left
  rw [List.append_nil]
  by_cases hz : t.descNum = 0
  · rw [transferQueue,if_pos hz,queuedBy,if_pos hz,List.append_nil]
    exact ⟨h,rfl⟩
  have hne : ∀ x ∈ s.engine.transferList ++ [t], x.descNum ≠ 0 := by
    intro x hx
    rcases List.mem_append.mp hx with hx | hx
    · exact h.nonempty x hx
    · rw [List.mem_singleton.mp hx]
      exact hz
  rw [transferQueue,if_neg hz,queuedBy,if_neg hz]
  rcases h.engine with hs | ⟨u,rest,hr⟩
  · -- the engine is idle, so the first of the queue is started
    simp only [hs.running,Bool.false_eq_true,if_false,transferList_engineStart]
    refine ⟨⟨?_,fun hp => (pollWb_engineStart _).trans (h.quiet hp),.inr ?_⟩,trivial⟩
    · rw [transferList_engineStart]
      exact hne
    · rcases hs.tail with rfl | ⟨u,rest,lost,hlist,htail⟩
      · cases hlist : s.engine.transferList with
        | nil => exact ⟨t,[],engineStart_running rfl hs.word rfl (attempt_zero t.id).symm⟩
        | cons u rest =>
            exact ⟨u,rest ++ [t],engineStart_running rfl hs.word rfl (attempt_zero u.id).symm⟩
      · exact ⟨u,rest ++ [t],engineStart_running rfl hs.word (by simp [hlist]) htail⟩
  · simp only [hr.running,if_true]
    exact ⟨⟨hne,h.quiet,.inr
      ⟨u,rest ++ [t],{ hr with running := rfl, list := by simp [hr.list] }⟩⟩,trivial⟩

theorem advances_exec (h : Inv pollMode s tail) (hs : step pollMode s .exec = some (s',outs)) :
    Advances pollMode s tail .exec s' outs := by
  simp only [step] at hs
  split_ifs at hs with hg
  cases hs
  rcases h.running_of_run hg.1 with ⟨t,rest,hr⟩
  exact .inl ⟨⟨h.nonempty,h.quiet,.inr ⟨t,rest,hr.exec hg.2.1 hg.2.2⟩⟩,(List.append_nil _).symm⟩

theorem advances_idle (h : Inv pollMode s tail) (hs : step pollMode s .idle = some (s',outs)) :
    Advances pollMode s tail .idle s' outs := by
  simp only [step] at hs
  split_ifs at hs with hg
  cases hs
  rcases h.running_of_run hg.1 with ⟨t,rest,hr⟩
  rw [Advances,List.append_nil]
  exact .inl ⟨⟨h.nonempty,h.quiet,.inr ⟨t,rest,hr.idle hg.2.2⟩⟩,(List.append_nil _).symm⟩

theorem advances_fault (h : Inv pollMode s tail) (hs : step pollMode s .fault = some (s',outs)) :
    Advances pollMode s tail .fault s' outs := by
  simp only [step] at hs
  split_ifs at hs with hg hp
  · cases hs
    rcases h.running_of_run hg.1 with ⟨t,rest,hr⟩
    rw [Ip.fault_eq]
    exact .inl ⟨⟨h.nonempty,fun hf => absurd (hp.symm.trans hf) (by decide),
      .inr ⟨t,rest,hr.fault hg.2 (.inr rfl)⟩⟩,(List.append_nil _).symm⟩
  · cases hs
    have hquiet := h.quiet (Bool.not_eq_true _ ▸ hp)
    rcases h.running_of_run hg.1 with ⟨t,rest,hr⟩
    rw [Ip.fault_eq]
    exact .inl ⟨⟨h.nonempty,fun _ => hquiet,.inr ⟨t,rest,hr.fault hg.2 (.inl hquiet)⟩⟩,
      (List.append_nil _).symm⟩

theorem advances_writeback (h : Inv pollMode s tail)
    (hs : step pollMode s .writeback = some (s',outs)) :
    Advances pollMode s tail .writeback s' outs := by
  simp only [step] at hs
  split_ifs at hs with hg
  cases hs
  rcases h.running_of_run hg.2.1 with ⟨t,rest,hr⟩
  rw [Advances,List.append_nil]
  exact .inl ⟨⟨h.nonempty,fun hf => absurd (hg.1.symm.trans hf) (by decide),
    .inr ⟨t,rest,hr.writeback⟩⟩,(List.append_nil _).symm⟩

/-- A transfer that times out leaves the queue and the engine is stopped. -/
theorem advances_timeout (h : Inv pollMode s tail) (hword : s.pollWb = 0)
    (hs : step pollMode s .timeout = some (s',outs)) :
    Advances pollMode s tail .timeout s' outs := by
  have hne := h.nonempty
  cases hlist : s.engine.transferList with
  | nil => simp [step,hlist] at hs
  | cons t rest =>
      rw [hlist] at hne
      simp only [step,hlist,transferAbort,engineStatusRead,xdmaEngineStop,if_true] at hs
      cases hs
      have hleft : Inv pollMode
          ⟨⟨false,s.hw.status,s.engine.descDequeued,rest⟩,Ip.stop s.hw,s.pollWb⟩ [] :=
        ⟨fun x hx => hne x (List.mem_cons_of_mem _ hx),fun _ => hword,
          .inl ⟨rfl,Ip.stop_run _,hword,.inl rfl⟩⟩
      right
      rcases h.engine with hs | ⟨u,rest',hr⟩
      · rcases hs.tail with rfl | ⟨u,rest',lost,hu,htail⟩
        · exact ⟨⟨t,0,0,false,.aborted⟩,⟨Nat.zero_le _,trivial⟩,rfl,rfl,hlist,hleft⟩
        · rw [hlist,List.cons_eq_cons] at hu
          rw [htail,← hu.1]
          exact ⟨⟨t,lost,0,false,.aborted⟩,⟨Nat.zero_le _,trivial⟩,rfl,rfl,hlist,hleft⟩
      · have hu := hr.list
        rw [hlist,List.cons_eq_cons] at hu
        rcases hr.tail with ⟨lost,htail⟩
        have hcount := hr.count
        rw [htail,← hu.1]
        rw [← hu.1] at hcount
        have hle : s.hw.completedDescCount.toNat ≤ t.descNum.toNat := by omega
        exact ⟨⟨t,lost,s.hw.completedDescCount.toNat,s.hw.status.error,.aborted⟩,⟨hle,trivial⟩,
          rfl,rfl,hlist,hleft⟩

/-- The service of an engine that has completed descriptors, once it is stopped
and its status read: the count is that of the engine, or an older one. -/
theorem advances_count {s2 : State} (e : Event) (hqueue : queuedBy e = []) {count : BitVec 32}
    (h : Inv pollMode s tail) (hr : Running s t rest tail)
    (hlist : s2.engine.transferList = s.engine.transferList)
    (hstop : s2.engine.running = false) (hrun : s2.hw.run = false) (hword : s2.pollWb = 0)
    (hdeq : s2.engine.descDequeued = 0) (herr : s2.engine.status.error = s.hw.status.error)
    (hcount : count ≠ 0) (hle : count.toNat ≤ s.hw.completedDescCount.toNat)
    (hfull : pollMode = true ∨ s.hw.status.busy = false ∧ count = s.hw.completedDescCount) :
    ∃ s' outs, engineServiceCount s2 count = (s',outs) ∧ Advances pollMode s tail e s' outs := by
  have hsum := hr.count
  have hnum : ¬ t.descNum < count := by
    rw [BitVec.lt_def]
    omega
  rcases engineServiceCount_stopped pollMode hstop hrun hword (hlist ▸ h.nonempty)
    (hlist.trans hr.list) hdeq hcount hnum with ⟨s',heq,hinv,hrest,-⟩
  refine ⟨s',_,heq,.inr ?_⟩
  rcases hr.tail with ⟨lost,htail⟩
  refine ⟨⟨t,lost,s.hw.completedDescCount.toNat,s.hw.status.error,_⟩,⟨by simp only; omega,?_⟩,
    by rw [htail]; rfl,hqueue,by rw [hr.list,hrest],hinv⟩
  rw [herr]
  cases he : s.hw.status.error with
  | true => exact .inl rfl
  | false =>
      by_cases hlt : count < t.descNum
      · simp only [hlt,if_true,Bool.false_eq_true]
        rcases hfull with hp | ⟨hb,rfl⟩
        · exact .inr hp
        · have hleft := hr.ended hb he
          rw [BitVec.lt_def] at hlt
          omega
      · simp only [hlt,Bool.false_eq_true,if_false]
        rw [BitVec.lt_def] at hlt
        exact ⟨by omega,trivial⟩

theorem advances_stopped (e : Event) (hqueue : queuedBy e = []) (h : Inv pollMode s tail)
    (hs : Stopped s tail) (wb : BitVec 32) :
    Advances pollMode s tail e (engineService s wb).1 (engineService s wb).2 := by
  have heq : engineService s wb = (engineStatusRead true s,[]) := if_pos hs.running
  rw [heq]
  refine .inl ⟨⟨h.nonempty,h.quiet,.inl ?_⟩,by rw [hqueue,List.append_nil]; rfl⟩
  rw [List.append_nil]
  exact ⟨hs.running,hs.run,hs.word,hs.tail⟩

theorem engineService_zero (s : State) {w : BitVec 32} (hw : w &&& wbCountMask = 0)
    (hrun : s.engine.running = true) :
    engineService s w = if s.hw.status.busy = false then
        engineServiceCount (xdmaEngineStop (engineStatusRead true s)) s.hw.completedDescCount
      else engineServiceCount (engineStatusRead true s) s.hw.completedDescCount := by
  simp only [engineService,hrun,Bool.true_eq_false,if_false,hw,true_or,if_true,ne_eq,
    not_true_eq_false,or_false]
  cases hb : s.hw.status.busy with
  | true => simp [engineStatusRead,hb]
  | false =>
      simp only [engineStatusRead,xdmaEngineStop,if_true,hb]
      exact congrArg (engineServiceCount _) (Ip.stop_count _ rfl)

theorem engineService_word (s : State) {w : BitVec 32} (hw : w &&& wbCountMask ≠ 0)
    (hrun : s.engine.running = true) :
    engineService s w = engineServiceCount
      (xdmaEngineStop (if w.getLsbD 31 = true then engineStatusRead true s else s))
      (w &&& wbCountMask) := by
  simp only [engineService,hrun,Bool.true_eq_false,if_false,hw,false_or,or_true,if_true,ne_eq,
    not_false_eq_true]

theorem advances_interrupt (h : Inv false s tail) (hcalm : Calm s) :
    Advances false s tail .service (engineService s 0).1 (engineService s 0).2 := by
  have hword := h.quiet rfl
  rcases h.engine with hs | ⟨t,rest,hr⟩
  · exact advances_stopped .service rfl h hs 0
  rw [engineService_zero s rfl hr.running]
  cases hb : s.hw.status.busy with
  | true =>
      -- busy with the first descriptor: nothing happens
      have hz : s.hw.completedDescCount = 0 := hcalm.resolve_left (by simp [hb])
      have hclean := hr.busy hb
      have hcount : engineServiceCount (engineStatusRead true s) s.hw.completedDescCount =
          (engineStatusRead true s,[]) := if_pos hz
      simp only [Bool.true_eq_false,if_false,hcount]
      refine .inl ⟨⟨h.nonempty,h.quiet,.inr ⟨t,rest,?_⟩⟩,(List.append_nil _).symm⟩
      rw [List.append_nil]
      rcases hr.tail with ⟨lost,htail⟩
      rw [hclean] at htail
      exact { hr with
        clean := hclean
        busy := fun _ => rfl
        ended := fun hf _ => by rw [engineStatusRead] at hf; simp [hb] at hf
        word := fun _ => hr.word hclean
        flag := fun hf => Bool.noConfusion hf
        tail := ⟨lost,htail⟩ }
  | false =>
      simp only [if_true]
      by_cases hz : s.hw.completedDescCount = 0
      · have herr : s.hw.status.error = true := by
          by_contra hne
          have hleft := hr.ended hb (Bool.eq_false_iff.mpr hne)
          have hcount := hr.count
          rw [hz,hleft] at hcount
          have hpos := h.nonempty t (by rw [hr.list]; exact List.mem_cons_self)
          exact hpos (BitVec.eq_of_toNat_eq hcount.symm)
        have hcount : engineServiceCount (xdmaEngineStop (engineStatusRead true s))
            s.hw.completedDescCount = (xdmaEngineStop (engineStatusRead true s),[]) := if_pos hz
        rw [hcount]
        exact advances_lost .service rfl h hr rfl rfl (Ip.stop_run _) hword hz herr
      · have hstop : ∃ s' outs, engineServiceCount (xdmaEngineStop (engineStatusRead true s))
            s.hw.completedDescCount = (s',outs) ∧ Advances false s tail .service s' outs :=
          advances_count .service rfl h hr rfl rfl (Ip.stop_run _) hword hr.dequeued rfl hz le_rfl
            (.inr ⟨hb,rfl⟩)
        rcases hstop with ⟨s',outs,heq,hadv⟩
        rw [heq]
        exact hadv

/-- The service for a word that the monitor has read. -/
theorem advances_word (e : Event) (hqueue : queuedBy e = []) (h : Inv true s tail)
    (hword : s.pollWb ≠ 0) :
    Advances true s tail e (engineService { s with pollWb := 0 } s.pollWb).1
      (engineService { s with pollWb := 0 } s.pollWb).2 := by
  rcases h.engine with hs | ⟨t,rest,hr⟩
  · exact absurd hs.word hword
  have hfits := hr.fits
  cases herr : s.hw.status.error with
  | true =>
      have heq := (hr.flag herr).resolve_left hword
      have hbusy : s.hw.status.busy = false := by
        by_contra hb
        have hclean := hr.busy (by simpa using hb)
        exact absurd (herr.symm.trans hclean) (by decide)
      have hcount := writeback_count hfits herr
      rw [heq]
      by_cases hz : s.hw.completedDescCount = 0
      · -- only the error flag is written
        have hlost : engineService { s with pollWb := 0 } (writeback s.hw) =
            (xdmaEngineStop (engineStatusRead true { s with pollWb := 0 }),[]) := by
          rw [engineService_zero { s with pollWb := 0 } (hcount.trans hz) hr.running,if_pos hbusy]
          exact if_pos hz
        rw [hlost]
        exact advances_lost e hqueue h hr rfl rfl (Ip.stop_run _) rfl hz herr
      · have hstop : ∃ s' outs, engineServiceCount
            (xdmaEngineStop (engineStatusRead true { s with pollWb := 0 }))
            s.hw.completedDescCount = (s',outs) ∧ Advances true s tail e s' outs :=
          advances_count e hqueue h hr rfl rfl (Ip.stop_run _) rfl hr.dequeued rfl hz le_rfl
            (.inl rfl)
        rcases hstop with ⟨s',outs,hs',hadv⟩
        rw [engineService_word { s with pollWb := 0 } (by rwa [hcount]) hr.running,hcount,
          writeback_flag herr,if_pos rfl,hs']
        exact hadv
  | false =>
      have hle := hr.word herr
      rcases word_eq (hle.trans hfits) with ⟨hcount,hflag⟩
      have hstop : ∃ s' outs, engineServiceCount (xdmaEngineStop { s with pollWb := 0 }) s.pollWb =
          (s',outs) ∧ Advances true s tail e s' outs :=
        advances_count e hqueue h hr rfl rfl (Ip.stop_run _) rfl hr.dequeued
          (hr.clean.trans herr.symm) hword hle (.inl rfl)
      rcases hstop with ⟨s',outs,hs',hadv⟩
      rw [engineService_word { s with pollWb := 0 } (by rwa [hcount]) hr.running,hcount,hflag,
        if_neg Bool.false_ne_true,hs']
      exact hadv

theorem advances_poll (e : Event) (hqueue : queuedBy e = []) (h : Inv true s tail)
    (expected : BitVec 32) (timedOut : Bool) :
    Advances true s tail e (engineServicePoll expected timedOut s).1
      (engineServicePoll expected timedOut s).2 := by
  unfold engineServicePoll
  rcases monitor_cases s expected timedOut with heq | ⟨-,heq⟩ | heq <;> simp only [heq]
  · exact advances_same e hqueue h
  · exact advances_none e hqueue h
  · by_cases hword : s.pollWb = 0
    · rw [if_pos hword]
      exact advances_none e hqueue h
    · rw [if_neg hword]
      exact advances_word e hqueue h hword

theorem advances_service (h : Inv pollMode s tail)
    (hs : calmStep pollMode s .service = some (s',outs)) :
    Advances pollMode s tail .service s' outs := by
  simp only [calmStep] at hs
  split_ifs at hs with hg
  cases pollMode with
  | true =>
      have heq : cmplStatusProc s = (s',outs) := Option.some.inj hs
      have hpoll : Advances true s tail .service (cmplStatusProc s).1 (cmplStatusProc s).2 := by
        unfold cmplStatusProc
        cases s.engine.transferList with
        | nil => exact advances_same .service rfl h
        | cons t rest => exact advances_poll .service rfl h t.descNum false
      rwa [heq] at hpoll
  | false =>
      have heq : engineService s 0 = (s',outs) := Option.some.inj hs
      have hint := advances_interrupt h (hg.resolve_left Bool.false_ne_true)
      rwa [heq] at hint

theorem advances_calmStep {e : Event} (h : Inv pollMode s tail)
    (hs : calmStep pollMode s e = some (s',outs)) : Advances pollMode s tail e s' outs := by
  cases e with
  | queue t =>
      cases hs
      exact advances_queue h t
  | exec => exact advances_exec h hs
  | idle => exact advances_idle h hs
  | fault => exact advances_fault h hs
  | writeback => exact advances_writeback h hs
  | service => exact advances_service h hs
  | timeout =>
      simp only [calmStep] at hs
      split_ifs at hs with hword
      exact advances_timeout h hword hs
  | poll expected timedOut =>
      cases pollMode with
      | true =>
          have heq : engineServicePoll expected timedOut s = (s',outs) := Option.some.inj hs
          have hpoll := advances_poll (.poll expected timedOut) rfl h expected timedOut
          rwa [heq] at hpoll
      | false => contradiction

/-- A run: the finished transfers are the first that were queued, and the
output is what each of them has put out, one after the other. -/
theorem run_history {es : List Event} (h : Inv pollMode s tail)
    (hrun : EventMachine.run (calmStep pollMode) s es = some (s',outs)) :
    ∃ (history : List Entry) (tail' : List Out), (∀ e ∈ history, e.Sound pollMode) ∧
      tail ++ outs = history.flatMap Entry.outs ++ tail' ∧ Inv pollMode s' tail' ∧
      history.map Entry.transfer ++ s'.engine.transferList =
        s.engine.transferList ++ es.flatMap queuedBy := by
  induction es generalizing s tail outs with
  | nil =>
      cases hrun
      exact ⟨[],tail,by simp,by simp,h,by simp⟩
  | cons e es ih =>
      rcases EventMachine.run_cons_iff.mp hrun with ⟨u,a,b,hstep,hrest,rfl⟩
      rcases advances_calmStep h hstep with ⟨hinv,hlist⟩ | ⟨entry,hsound,houts,hqueue,hlist,hinv⟩
      · rcases ih hinv hrest with ⟨history,tail',hs,hout,hinv',hfifo⟩
        refine ⟨history,tail',hs,?_,hinv',?_⟩
        · rw [← List.append_assoc,hout]
        · rw [hfifo,hlist,List.flatMap_cons,List.append_assoc]
      · rcases ih hinv hrest with ⟨history,tail',hs,hout,hinv',hfifo⟩
        refine ⟨entry::history,tail',?_,?_,hinv',?_⟩
        · intro x hx
          rcases List.mem_cons.mp hx with rfl | hx
          · exact hsound
          · exact hs x hx
        · rw [← List.append_assoc,houts,List.flatMap_cons,List.append_assoc,← hout,List.nil_append]
        · rw [List.map_cons,List.cons_append,hfifo,hlist,List.flatMap_cons,hqueue]
          rfl

end Steps

/-- Between two transfers nothing is put out, and else what the first one of the queue has. -/
theorem Inv.tail_eq {pollMode : Bool} {s : State} {tail : List Out} (h : Inv pollMode s tail) :
    tail = [] ∨ ∃ t rest lost executed faulted, s.engine.transferList = t::rest ∧
      executed ≤ t.descNum.toNat ∧ tail = attempt t.id lost executed faulted := by
  rcases h.engine with hs | ⟨t,rest,hr⟩
  · rcases hs.tail with rfl | ⟨t,rest,lost,hlist,htail⟩
    · exact .inl rfl
    · exact .inr ⟨t,rest,lost,0,false,hlist,Nat.zero_le _,htail⟩
  · rcases hr.tail with ⟨lost,htail⟩
    have hcount := hr.count
    exact .inr ⟨t,rest,lost,_,_,hr.list,by omega,htail⟩

theorem inv_idle (pollMode : Bool) : Inv pollMode idle [] :=
  ⟨by simp [idle],fun _ => rfl,.inl ⟨rfl,rfl,rfl,.inl rfl⟩⟩

def shortTransfer : Transfer := ⟨1,1,by decide⟩
def longTransfer : Transfer := ⟨2,2,by decide⟩

local instance : Ip := .immediate

/-- The states that transfers have been finished with. -/
def reports (outs : List Out) : List (ℕ × TransferState) :=
  outs.filterMap fun
    | .done id state => some (id,state)
    | _ => none

/-- Events of the engine and of the service. -/
def Progress (e : Event) : Prop := e = .exec ∨ e = .idle ∨ e = .writeback ∨ e = .service

theorem reports_append (a b : List Out) : reports (a ++ b) = reports a ++ reports b :=
  List.filterMap_append

section Draining
variable [Ip] {pollMode : Bool} {s : State} {t : Transfer} {rest : List Transfer}
  {tail : List Out}

/-- The poll thread serves a count that reaches that of the first transfer. -/
theorem cmplStatusProc_served (hlist : s.engine.transferList = t::rest)
    (hrun : s.engine.running = true) (ht : t.descNum ≠ 0) (hle : t.descNum ≤ s.pollWb)
    (hfits : s.pollWb.toNat ≤ 2048) :
    cmplStatusProc s = engineServiceCount (xdmaEngineStop { s with pollWb := 0 }) s.pollWb := by
  rcases word_eq hfits with ⟨hmask,hflag⟩
  have hword : s.pollWb ≠ 0 := by
    rintro hz
    rw [hz] at hle
    exact ht (BitVec.le_zero_iff.mp hle)
  have hmonitor : engineServiceWbMonitor t.descNum false s =
      ({ s with pollWb := 0 },some s.pollWb) := by
    unfold engineServiceWbMonitor
    rw [if_neg ht]
    simp only
    rw [hflag,if_neg Bool.false_ne_true,if_pos hle]
  simp only [cmplStatusProc,hlist,engineServicePoll,hmonitor,hword,if_false]
  rw [engineService_word { s with pollWb := 0 } (by rwa [hmask]) hrun,hmask,hflag,
    if_neg Bool.false_ne_true]

end Draining

/-- What holds in every run, calm or not: a running engine has something to do, and an
error ends BUSY and stands in the poll word. -/
structure Kept (pollMode : Bool) (s : State) : Prop where
  run : s.hw.run = s.engine.running
  list : s.engine.running = true → s.engine.transferList ≠ []
  nonempty : ∀ t ∈ s.engine.transferList, t.descNum ≠ 0
  error : s.hw.run = true → s.hw.status.error = true →
    s.hw.status.busy = false ∧ (pollMode = true → s.pollWb = writeback s.hw)

/-- The two sides agree, and a running engine has no error. -/
def Agree (s : State) : Prop :=
  s.hw.run = s.engine.running ∧ (s.hw.run = true → s.hw.status.error = false)

theorem kept_idle (pollMode : Bool) : Kept pollMode idle :=
  ⟨rfl,fun h => Bool.noConfusion h,fun _ ht => absurd ht List.not_mem_nil,
    fun h => Bool.noConfusion h⟩

theorem kept_of_agree {pollMode : Bool} {s : State} (h : Agree s)
    (hlist : s.engine.running = true → s.engine.transferList ≠ [])
    (hne : ∀ t ∈ s.engine.transferList, t.descNum ≠ 0) : Kept pollMode s :=
  ⟨h.1,hlist,hne,fun hrun herr => absurd (herr.symm.trans (h.2 hrun)) (by decide)⟩

theorem mem_serviceTransferList {ts : List Transfer} {count dequeued : BitVec 32} {x : Transfer}
    (hx : x ∈ (engineServiceTransferList ts count dequeued).1) : x ∈ ts := by
  induction ts generalizing count dequeued with
  | nil => exact hx
  | cons t ts ih =>
      unfold engineServiceTransferList at hx
      split_ifs at hx
      · exact List.mem_cons_of_mem _ (ih hx)
      · exact hx

theorem agree_statusRead {s : State} (hrun : s.hw.run = s.engine.running) :
    Agree (engineStatusRead true s) := ⟨hrun,fun _ => rfl⟩

section Reports
variable [Ip] {pollMode : Bool} {s s' : State} {outs : List Out}

theorem agree_stop (s : State) : Agree (xdmaEngineStop s) :=
  ⟨Ip.stop_run _,fun h => absurd ((Ip.stop_run s.hw).symm.trans h) (by decide)⟩

theorem agree_engineStart (h : Agree s) : Agree (engineStart s) := by
  cases hrun : s.engine.running with
  | true => rwa [engineStart,if_pos hrun]
  | false =>
      cases hlist : s.engine.transferList with
      | nil => simpa [engineStart,hrun,hlist] using h
      | cons t rest =>
          rw [engineStart_cons hrun hlist]
          exact ⟨rfl,fun _ => rfl⟩

theorem agree_final (s : State) (h : Agree s) (count : BitVec 32) :
    Agree (engineServiceFinalTransfer s count).1 := by
  unfold engineServiceFinalTransfer
  cases s.engine.transferList with
  | nil => exact h
  | cons t ts =>
      simp only
      split_ifs
      · exact agree_stop s
      · exact h
      · exact h

theorem mem_final {count : BitVec 32} {x : Transfer}
    (hx : x ∈ (engineServiceFinalTransfer s count).1.engine.transferList) :
    x ∈ s.engine.transferList := by
  unfold engineServiceFinalTransfer at hx
  cases hlist : s.engine.transferList with
  | nil =>
      rw [hlist] at hx
      simp only at hx
      rwa [hlist] at hx
  | cons t ts =>
      rw [hlist] at hx
      simp only at hx
      split_ifs at hx <;> exact List.mem_cons_of_mem _ hx

theorem kept_resume (h : Agree s) (hne : ∀ t ∈ s.engine.transferList, t.descNum ≠ 0) :
    Kept pollMode (engineServiceResume s) := by
  unfold engineServiceResume
  split_ifs with hstop hnil hnil
  · exact kept_of_agree h (fun hrun => absurd (hstop.symm.trans hrun) (by decide)) hne
  · exact kept_of_agree (agree_engineStart h) (fun _ => by rwa [transferList_engineStart])
      (by rwa [transferList_engineStart])
  · exact kept_of_agree (agree_stop s) (fun hrun => Bool.noConfusion hrun) hne
  · exact kept_of_agree h (fun _ => hnil) hne

theorem kept_count (h : Agree s) (hlist : s.engine.running = true → s.engine.transferList ≠ [])
    (hne : ∀ t ∈ s.engine.transferList, t.descNum ≠ 0) (count : BitVec 32) :
    Kept pollMode (engineServiceCount s count).1 := by
  unfold engineServiceCount
  split_ifs
  · exact kept_of_agree h hlist hne
  · refine kept_resume (agree_final _ ?_ _) fun x hx => ?_
    · exact ⟨h.1,h.2⟩
    · exact hne x (mem_serviceTransferList (mem_final hx))

/-- Behind the service a running engine has no error: it was read, or the engine stopped. -/
theorem kept_service (s : State) (hrun : s.hw.run = s.engine.running)
    (hlist : s.engine.running = true → s.engine.transferList ≠ [])
    (hne : ∀ t ∈ s.engine.transferList, t.descNum ≠ 0) (w : BitVec 32) :
    Kept pollMode (engineService s w).1 := by
  have hread := agree_statusRead hrun
  cases hon : s.engine.running with
  | false =>
      have heq : engineService s w = (engineStatusRead true s,[]) := if_pos hon
      rw [heq]
      exact kept_of_agree hread (fun h => absurd (hon.symm.trans h) (by decide)) hne
  | true =>
      by_cases hz : w &&& wbCountMask = 0
      · rw [engineService_zero s hz hon]
        split_ifs
        · exact kept_count (agree_stop (engineStatusRead true s)) (fun h => Bool.noConfusion h)
            hne _
        · exact kept_count hread (fun _ => hlist hon) hne _
      · rw [engineService_word s hz hon]
        refine kept_count (agree_stop _) (fun h => Bool.noConfusion h) ?_ _
        split_ifs <;> exact hne

theorem kept_poll (h : Kept true s) (expected : BitVec 32) (timedOut : Bool) :
    Kept true (engineServicePoll expected timedOut s).1 := by
  unfold engineServicePoll
  have hread (hflag : s.pollWb.getLsbD 31 = false) : Kept true { s with pollWb := 0 } := by
    refine ⟨h.run,h.list,h.nonempty,fun hrun herr => ?_⟩
    have hword := (h.error hrun herr).2 rfl
    rw [hword,writeback_flag herr] at hflag
    contradiction
  rcases monitor_cases s expected timedOut with heq | ⟨hflag,heq⟩ | heq <;> simp only [heq,if_true]
  · exact h
  · exact hread hflag
  · by_cases hword : s.pollWb = 0
    · rw [if_pos hword]
      exact hread (by rw [hword]; rfl)
    · rw [if_neg hword]
      exact kept_service { s with pollWb := 0 } h.run h.list h.nonempty _

theorem kept_queue (h : Kept pollMode s) (t : Transfer) : Kept pollMode (transferQueue s t) := by
  unfold transferQueue
  simp only
  have hsome : s.engine.transferList ++ [t] ≠ [] :=
    List.append_ne_nil_of_right_ne_nil _ (List.cons_ne_nil _ _)
  split_ifs with hz hrun
  · exact h
  all_goals
    have hne : ∀ x ∈ s.engine.transferList ++ [t], x.descNum ≠ 0 := by
      intro x hx
      rcases List.mem_append.mp hx with hx | hx
      · exact h.nonempty x hx
      · rwa [List.mem_singleton.mp hx]
  · exact ⟨h.run,fun _ => hsome,hne,h.error⟩
  · have hagree : Agree { s with
        engine := { s.engine with transferList := s.engine.transferList ++ [t] } } :=
      ⟨h.run,fun hf => absurd (h.run.symm.trans hf) hrun⟩
    exact kept_of_agree (agree_engineStart hagree) (fun _ => by rwa [transferList_engineStart])
      (by rwa [transferList_engineStart])

theorem kept_cmplStatusProc (h : Kept true s) : Kept true (cmplStatusProc s).1 := by
  unfold cmplStatusProc
  cases s.engine.transferList with
  | nil => exact h
  | cons t rest => exact kept_poll h t.descNum false

theorem kept_timeout {t : Transfer} {rest : List Transfer} (h : Kept pollMode s)
    (hlist : s.engine.transferList = t::rest) :
    Kept pollMode (xdmaEngineStop (transferAbort (engineStatusRead false s) t)) := by
  refine kept_of_agree (agree_stop _) (fun hrun => Bool.noConfusion hrun) fun x hx => ?_
  apply h.nonempty x
  simp only [xdmaEngineStop,transferAbort,engineStatusRead,hlist,if_true] at hx
  rw [hlist]
  exact List.mem_cons_of_mem _ hx

theorem kept_step {e : Event} (h : Kept pollMode s) (hs : step pollMode s e = some (s',outs)) :
    Kept pollMode s' := by
  cases e with
  | queue t =>
      cases hs
      exact kept_queue h t
  | exec =>
      simp only [step] at hs
      split_ifs at hs with hg
      cases hs
      exact ⟨h.run,h.list,h.nonempty,fun hrun herr =>
        absurd (hg.2.1.symm.trans (h.error hrun herr).1) (by decide)⟩
  | idle =>
      simp only [step] at hs
      split_ifs at hs with hg
      cases hs
      exact ⟨h.run,h.list,h.nonempty,fun hrun herr =>
        absurd (hg.2.1.symm.trans (h.error hrun herr).1) (by decide)⟩
  | fault =>
      simp only [step] at hs
      split_ifs at hs with hg hp
      · cases hs
        rw [Ip.fault_eq]
        exact ⟨h.run,h.list,h.nonempty,fun _ _ => ⟨rfl,fun _ => rfl⟩⟩
      · cases hs
        rw [Ip.fault_eq]
        exact ⟨h.run,h.list,h.nonempty,fun _ _ => ⟨rfl,fun hf => absurd hf hp⟩⟩
  | writeback =>
      simp only [step] at hs
      split_ifs at hs with hg
      cases hs
      exact ⟨h.run,h.list,h.nonempty,fun hrun herr => ⟨(h.error hrun herr).1,fun _ => rfl⟩⟩
  | service =>
      cases pollMode with
      | true =>
          have heq : cmplStatusProc s = (s',outs) := Option.some.inj hs
          have hserved := kept_cmplStatusProc h
          rwa [heq] at hserved
      | false =>
          have heq : engineService s 0 = (s',outs) := Option.some.inj hs
          have hserved := @kept_service _ false s h.run h.list h.nonempty 0
          rwa [heq] at hserved
  | timeout =>
      simp only [step] at hs
      cases hlist : s.engine.transferList with
      | nil => simp [hlist] at hs
      | cons t rest =>
          rw [hlist] at hs
          cases hs
          exact kept_timeout h hlist
  | poll expected timedOut =>
      cases pollMode with
      | true =>
          have heq : engineServicePoll expected timedOut s = (s',outs) := Option.some.inj hs
          have hpoll := kept_poll h expected timedOut
          rwa [heq] at hpoll
      | false => contradiction

/-- A stopped engine without an error, with the given queue. -/
structure Dormant (queue : List Transfer) (s : State) : Prop where
  running : s.engine.running = false
  run : s.hw.run = false
  clean : s.hw.status.error = false
  list : s.engine.transferList = queue

section Dormant
variable {queue : List Transfer}

theorem Dormant.service (h : Dormant queue s) (w : BitVec 32) :
    (engineService s w).2 = [] ∧ Dormant queue (engineService s w).1 := by
  have heq : engineService s w = (engineStatusRead true s,[]) := if_pos h.running
  rw [heq]
  exact ⟨rfl,h.running,h.run,rfl,h.list⟩

theorem Dormant.poll (h : Dormant queue s) (expected : BitVec 32) (timedOut : Bool) :
    (engineServicePoll expected timedOut s).2 = [] ∧
      Dormant queue (engineServicePoll expected timedOut s).1 := by
  have hread : Dormant queue { s with pollWb := 0 } := ⟨h.running,h.run,h.clean,h.list⟩
  unfold engineServicePoll
  rcases monitor_cases s expected timedOut with heq | ⟨-,heq⟩ | heq <;> simp only [heq,if_true]
  · exact ⟨trivial,h⟩
  · exact ⟨trivial,hread⟩
  · split_ifs
    · exact ⟨rfl,hread⟩
    · exact hread.service _

theorem Dormant.cmplStatusProc (h : Dormant queue s) :
    (cmplStatusProc s).2 = [] ∧ Dormant queue (cmplStatusProc s).1 := by
  unfold XdmaEngine.cmplStatusProc
  cases s.engine.transferList with
  | nil => exact ⟨rfl,h⟩
  | cons t rest => exact h.poll t.descNum false

theorem Dormant.step {e : Event} (h : Dormant queue s) (htimeout : e ≠ .timeout)
    (hqueue : ∀ t, e ≠ .queue t) (hs : step pollMode s e = some (s',outs)) :
    outs = [] ∧ Dormant queue s' := by
  cases e with
  | queue t => exact absurd rfl (hqueue t)
  | timeout => exact absurd rfl htimeout
  | exec | idle | fault | writeback => simp [XdmaEngine.step,h.run] at hs
  | service =>
      cases pollMode with
      | true =>
          have heq : XdmaEngine.cmplStatusProc s = (s',outs) := Option.some.inj hs
          have hserved := h.cmplStatusProc
          rwa [heq] at hserved
      | false =>
          have heq : engineService s 0 = (s',outs) := Option.some.inj hs
          have hserved := h.service 0
          rwa [heq] at hserved
  | poll expected timedOut =>
      cases pollMode with
      | true =>
          have heq : engineServicePoll expected timedOut s = (s',outs) := Option.some.inj hs
          have hpoll := h.poll expected timedOut
          rwa [heq] at hpoll
      | false => contradiction

/-- Without a new transfer and without a timeout a stopped engine stays as it is. -/
theorem Dormant.stays {es : List Event} (h : Dormant queue s)
    (hes : ∀ e ∈ es, e ≠ .timeout ∧ ∀ t, e ≠ .queue t)
    (hrun : EventMachine.run (XdmaEngine.step pollMode) s es = some (s',outs)) :
    outs = [] ∧ Dormant queue s' := by
  induction es generalizing s outs with
  | nil =>
      cases hrun
      exact ⟨rfl,h⟩
  | cons e es ih =>
      rcases EventMachine.run_cons_iff.mp hrun with ⟨u,a,b,hstep,hrest,rfl⟩
      have he := hes e List.mem_cons_self
      rcases h.step he.1 he.2 hstep with ⟨rfl,hu⟩
      exact ih hu (fun x hx => hes x (List.mem_cons_of_mem _ hx)) hrest

end Dormant

/-- An error before the first descriptor stops the engine, and that is all. -/
theorem service_first_fault (h : Kept pollMode s) (hrun : s.hw.run = true)
    (hz : s.hw.completedDescCount = 0) (herr : s.hw.status.error = true) :
    ∃ w, step pollMode s .service =
      some (xdmaEngineStop (engineStatusRead true { s with pollWb := w }),[]) := by
  have hon : s.engine.running = true := h.run.symm.trans hrun
  rcases h.error hrun herr with ⟨hbusy,hword⟩
  cases pollMode with
  | false =>
      refine ⟨s.pollWb,?_⟩
      simp only [step,Bool.false_eq_true,if_false]
      rw [engineService_zero s rfl hon,if_pos hbusy,hz]
      rfl
  | true =>
      have hwb : s.pollWb = wbErrMask := by simp [hword rfl,writeback,hz,herr]
      cases hlist : s.engine.transferList with
      | nil => exact absurd hlist (h.list hon)
      | cons t rest =>
          have hpos := h.nonempty t (by rw [hlist]; exact List.mem_cons_self)
          have hmonitor : engineServiceWbMonitor t.descNum false s =
              ({ s with pollWb := 0 },some wbErrMask) := by
            unfold engineServiceWbMonitor
            rw [if_neg hpos]
            simp only
            rw [hwb]
            exact if_pos rfl
          have hserve : step true s .service =
              some (engineService { s with pollWb := 0 } wbErrMask) := by
            simp only [step,cmplStatusProc,hlist,engineServicePoll,hmonitor,if_true]
            rw [if_neg (by decide)]
          refine ⟨0,?_⟩
          rw [hserve,engineService_zero { s with pollWb := 0 } rfl hon,if_pos hbusy,hz]
          rfl

end Reports

/-- An error before the first descriptor of a chain is never reported: the
service clears it and stops the engine, the transfer stays in the queue, and
until another transfer is queued or this one times out nothing more happens. -/
theorem first_fault_unreported [Ip] (pollMode : Bool) (es es' : List Event) (s s' : State)
    (outs outs' : List Out)
    (h : EventMachine.run (step pollMode) idle es = some (s,outs)) (hrun : s.hw.run = true)
    (herr : s.hw.status.error = true) (hfirst : s.hw.completedDescCount = 0)
    (hes : ∀ e ∈ es', e ≠ .timeout ∧ ∀ t, e ≠ .queue t)
    (h' : EventMachine.run (step pollMode) s (.service::es') = some (s',outs')) :
    outs' = [] ∧ s'.engine.running = false ∧ s'.hw.status.error = false ∧
      s'.engine.transferList = s.engine.transferList ∧ s.engine.transferList ≠ [] := by
  have hkept := EventMachine.run_invariant (fun _ _ _ _ => kept_step) (kept_idle pollMode) h
  have hbusy := (hkept.error hrun herr).1
  rcases EventMachine.run_cons_iff.mp h' with ⟨u,a,b,hstep,hrest,rfl⟩
  rcases service_first_fault hkept hrun hfirst herr with ⟨w,hservice⟩
  rw [hservice] at hstep
  cases hstep
  have hclean := Ip.stop_error { s.hw with status := { s.hw.status with error := false } } hbusy
  have hdormant : Dormant s.engine.transferList
      (xdmaEngineStop (engineStatusRead true { s with pollWb := w })) :=
    ⟨rfl,Ip.stop_run _,hclean,rfl⟩
  rcases hdormant.stays hes hrest with ⟨rfl,hs'⟩
  exact ⟨rfl,hs'.running,hs'.clean,hs'.list,hkept.list (hkept.run.symm.trans hrun)⟩

theorem first_fault_unreported_short :
    EventMachine.run (step true) idle [.queue shortTransfer,.fault] =
        some (⟨⟨true,⟨true,false⟩,0,[shortTransfer]⟩,⟨true,1,1,0,⟨false,true⟩⟩,wbErrMask⟩,
          [.fault 1]) ∧
      ∃ s, EventMachine.run (step true)
          ⟨⟨true,⟨true,false⟩,0,[shortTransfer]⟩,⟨true,1,1,0,⟨false,true⟩⟩,wbErrMask⟩
          [.service,.service] =
        some (s,[]) ∧ s.engine.transferList = [shortTransfer] := by
  have hrun : EventMachine.run (step true) idle [.queue shortTransfer,.fault] =
      some (⟨⟨true,⟨true,false⟩,0,[shortTransfer]⟩,⟨true,1,1,0,⟨false,true⟩⟩,wbErrMask⟩,
        [.fault 1]) := by
    decide
  refine ⟨hrun,⟨⟨false,⟨false,true⟩,0,[shortTransfer]⟩,⟨false,1,1,0,⟨false,false⟩⟩,0⟩,by decide,?_⟩
  exact (first_fault_unreported true [.queue shortTransfer,.fault] [.service] _ _ [.fault 1] []
    hrun rfl rfl rfl (by simp) (by decide)).2.2.2.1

/-- A list of transfers that the count runs past as a whole. -/
theorem engineServiceTransferList_all {ts : List Transfer} {count : BitVec 32}
    (dequeued : BitVec 32) (h : (ts.map fun t => t.descNum.toNat).sum < count.toNat) :
    (engineServiceTransferList ts count dequeued).1 = [] ∧
      (engineServiceTransferList ts count dequeued).2.2.2 =
        ts.map fun t => .done t.id .completed := by
  induction ts generalizing count dequeued with
  | nil => exact ⟨rfl,rfl⟩
  | cons t ts ih =>
      rw [List.map_cons,List.sum_cons] at h
      have hlt : t.descNum < count := by
        rw [BitVec.lt_def]
        omega
      have hsub : (count - t.descNum).toNat = count.toNat - t.descNum.toNat :=
        BitVec.toNat_sub_of_le (by rw [BitVec.le_def]; omega)
      rcases @ih (count - t.descNum) (dequeued + t.descNum) (by omega) with ⟨hnil,hdone⟩
      simp only [engineServiceTransferList,if_pos hlt]
      exact ⟨hnil,by rw [hdone]; rfl⟩

/-- The engine behind the last descriptor of `t`, before BUSY is cleared. -/
def atEnd (t : Transfer) (dequeued : BitVec 32) (ts : List Transfer) : State :=
  ⟨⟨true,⟨true,false⟩,dequeued,ts⟩,⟨true,t.id,0,t.descNum,⟨true,false⟩⟩,0⟩

section Traces
variable [Ip] {pollMode : Bool} {s : State} {t u : Transfer} {rest : List Transfer}

theorem run_queue {ts : List Transfer} (hrun : s.engine.running = true)
    (hts : ∀ t ∈ ts, t.descNum ≠ 0) :
    EventMachine.run (step pollMode) s (ts.map .queue) = some ({ s with
      engine := { s.engine with transferList := s.engine.transferList ++ ts } },[]) := by
  induction ts generalizing s with
  | nil => simp [EventMachine.run]
  | cons t ts ih =>
      have hne := hts t List.mem_cons_self
      have hstep : step pollMode s (.queue t) = some ({ s with
          engine := { s.engine with transferList := s.engine.transferList ++ [t] } },[]) := by
        simp only [step,transferQueue,if_neg hne,hrun,if_true]
      have hrest := ih (s := { s with
        engine := { s.engine with transferList := s.engine.transferList ++ [t] } }) hrun
        (fun x hx => hts x (List.mem_cons_of_mem _ hx))
      rw [List.map_cons]
      refine EventMachine.run_cons_iff.mpr ⟨_,[],[],hstep,?_,rfl⟩
      rw [hrest]
      simp

theorem run_exec {k n : ℕ} (hrun : s.hw.run = true) (hbusy : s.hw.status.busy = true)
    (hleft : s.hw.left = k) (hcount : s.hw.completedDescCount.toNat = n) (hn : n + k < 2^32) :
    EventMachine.run (step pollMode) s (List.replicate k .exec) = some ({ s with
      hw := { s.hw with left := 0, completedDescCount := BitVec.ofNat 32 (n+k) } },
      (List.range' n k).map (Out.desc s.hw.chain)) := by
  induction k generalizing s n with
  | zero =>
      have hsame : { s.hw with left := 0, completedDescCount := BitVec.ofNat 32 (n+0) } = s.hw := by
        rw [Nat.add_zero,← hcount,BitVec.ofNat_toNat,BitVec.setWidth_eq,← hleft]
      rw [hsame]
      rfl
  | succ k ih =>
      have hstep : step pollMode s .exec = some ({ s with hw := s.hw.exec },
          [.desc s.hw.chain s.hw.completedDescCount.toNat]) :=
        if_pos ⟨hrun,hbusy,by omega⟩
      have hrest := ih (s := { s with hw := s.hw.exec }) (n := n+1) hrun hbusy
        (by simp [Hardware.exec,hleft])
        (by simp only [Hardware.exec]; bv_omega) (by omega)
      rw [List.replicate_succ,show n+(k+1) = n+1+k by omega]
      refine EventMachine.run_cons_iff.mpr ⟨_,_,_,hstep,hrest,?_⟩
      rw [hcount,List.range'_succ,List.map_cons]
      rfl

theorem run_chain (t : Transfer) (rest : List Transfer) :
    EventMachine.run (step pollMode) (started t rest 0) (List.replicate t.descNum.toNat .exec) =
      some (atEnd t 0 (t::rest),descs t.id t.descNum.toNat) := by
  have hfits := t.fits
  rw [run_exec (k := t.descNum.toNat) (n := 0) rfl rfl rfl rfl (by omega),Nat.zero_add,
    BitVec.ofNat_toNat,BitVec.setWidth_eq,descs,List.range_eq_range']
  rfl

theorem service_atEnd (t : Transfer) (dequeued : BitVec 32) (ts : List Transfer) :
    step false (atEnd t dequeued ts) .service =
      some (engineServiceCount (atEnd t dequeued ts) t.descNum) := by
  simp only [step,Bool.false_eq_true,if_false]
  rw [engineService_zero (atEnd t dequeued ts) rfl rfl]
  rfl

theorem early_first (ht : t.descNum ≠ 0) (u : Transfer) (rest : List Transfer) :
    engineServiceCount (atEnd t 0 (t::u::rest)) t.descNum =
      (atEnd t t.descNum (u::rest),[.done t.id .completed]) := by
  have hpass : engineServiceTransferList (t::u::rest) t.descNum 0 =
      (t::u::rest,t.descNum,0,[]) := if_neg (BitVec.lt_irrefl _)
  rw [engineServiceCount,if_neg ht]
  simp only [atEnd,sub_zero,hpass]
  simp [engineServiceFinalTransfer,engineServiceResume]

theorem early_second (ht : t.descNum ≠ 0) (hu : u.descNum ≠ 0)
    (rest : List Transfer) : engineServiceCount (atEnd t t.descNum (u::rest)) t.descNum =
      (engineServiceResume (atEnd t (t.descNum + u.descNum) rest),[.done u.id .failed]) := by
  have hzero : ¬ u.descNum < 0 := by bv_omega
  have hpos : (0 : BitVec 32) < u.descNum := by bv_omega
  have hpass : engineServiceTransferList (u::rest) 0 t.descNum =
      (u::rest,0,t.descNum,[]) := if_neg hzero
  rw [engineServiceCount,if_neg ht]
  simp only [atEnd,sub_self,hpass]
  simp only [engineServiceFinalTransfer,Bool.false_eq_true,if_false,if_pos hpos,List.nil_append]

theorem early_third (ht : t.descNum ≠ 0) (hu : u.descNum ≠ 0)
    (hsum : u.descNum.toNat + (rest.map fun x => x.descNum.toNat).sum < 2^32) :
    (engineServiceCount (atEnd t (t.descNum + u.descNum) rest) t.descNum).2 =
      rest.map fun x => .done x.id .completed := by
  have hwrap : (t.descNum - (t.descNum + u.descNum)).toNat = 2^32 - u.descNum.toNat := by
    bv_omega
  have hall := @engineServiceTransferList_all rest (t.descNum - (t.descNum + u.descNum))
    (t.descNum + u.descNum) (by omega)
  rw [engineServiceCount,if_neg ht]
  simp only [atEnd,hall.1,hall.2,engineServiceFinalTransfer,List.append_nil]

theorem count_stale {count : BitVec 32} (hlist : s.engine.transferList = [u])
    (hdeq : s.engine.descDequeued = 0) (hclean : s.engine.status.error = false)
    (hcount : count ≠ 0) (hle : u.descNum ≤ count) :
    (engineServiceCount s count).2 = [.done u.id .completed] := by
  rw [engineServiceCount,if_neg hcount,hlist,hdeq,sub_zero]
  by_cases hlt : u.descNum < count
  · simp only [engineServiceTransferList,if_pos hlt,engineServiceFinalTransfer,List.append_nil]
  · have hge : ¬ count < u.descNum := BitVec.not_lt.mpr hle
    simp only [engineServiceTransferList,if_neg hlt,engineServiceFinalTransfer,hclean,
      Bool.false_eq_true,if_false,if_neg hge,List.nil_append]

end Traces

/-- Interrupts served while BUSY is still set behind the last descriptor: the
second one fails the next transfer, which was not started, and the third one
reports all others as completed, of which no descriptor has been executed. -/
theorem early_services [Ip] (t u : Transfer) (rest : List Transfer) (ht : t.descNum ≠ 0)
    (hu : u.descNum ≠ 0) (hrest : ∀ x ∈ rest, x.descNum ≠ 0)
    (hsum : u.descNum.toNat + (rest.map fun x => x.descNum.toNat).sum < 2^32) :
    ∃ s, EventMachine.run (step false) idle (.queue t::((u::rest).map Event.queue ++
        (List.replicate t.descNum.toNat Event.exec ++ [Event.service,.service,.service]))) =
      some (s,descs t.id t.descNum.toNat ++ Out.done t.id .completed::Out.done u.id .failed::
        rest.map fun x => Out.done x.id .completed) := by
  have hstart : step false idle (.queue t) = some (started t [] 0,[]) :=
    congrArg (fun s => some (s,[])) (transferQueue_empty rfl rfl ht)
  have hqueue : EventMachine.run (step false) (started t [] 0) ((u::rest).map .queue) =
      some (started t (u::rest) 0,[]) :=
    run_queue rfl fun x hx => by
      rcases List.mem_cons.mp hx with rfl | hx
      · exact hu
      · exact hrest x hx
  have hfirst := service_atEnd t 0 (t::u::rest)
  rw [early_first ht] at hfirst
  have hsecond := service_atEnd t t.descNum (u::rest)
  rw [early_second ht hu] at hsecond
  have hthird : ∃ s, step false (engineServiceResume (atEnd t (t.descNum + u.descNum) rest))
      .service = some (s,rest.map fun x => .done x.id .completed) := by
    cases rest with
    | nil => exact ⟨_,rfl⟩
    | cons x rest =>
        have hsame : engineServiceResume (atEnd t (t.descNum + u.descNum) (x::rest)) =
            atEnd t (t.descNum + u.descNum) (x::rest) := by simp [engineServiceResume,atEnd]
        rw [hsame,service_atEnd,← early_third ht hu hsum]
        exact ⟨_,rfl⟩
  rcases hthird with ⟨s,hthird⟩
  have hchain := @run_chain _ false t (u::rest)
  refine ⟨s,EventMachine.run_cons_iff.mpr ⟨_,[],_,hstart,EventMachine.run_append_iff.mpr
    ⟨_,[],_,hqueue,EventMachine.run_append_iff.mpr ⟨_,_,_,hchain,?_,rfl⟩,rfl⟩,rfl⟩⟩
  refine EventMachine.run_cons_iff.mpr ⟨_,_,_,hfirst,?_,rfl⟩
  refine EventMachine.run_cons_iff.mpr ⟨_,_,_,hsecond,?_,rfl⟩
  exact EventMachine.run_cons_iff.mpr ⟨s,_,[],hthird,rfl,(List.append_nil _).symm⟩

theorem early_services_three : ∃ s, EventMachine.run (step false) idle
    (.queue shortTransfer::([longTransfer,longTransfer].map Event.queue ++
      (List.replicate 1 Event.exec ++ [Event.service,.service,.service]))) =
    some (s,[.desc 1 0,.done 1 .completed,.done 2 .failed,.done 2 .completed]) :=
  early_services shortTransfer longTransfer [longTransfer] (by decide) (by decide) (by decide)
    (by decide)

/-- A transfer that times out after its count was written leaves the count behind: the
next transfer with no more descriptors is reported as completed although none of its
descriptors has been executed. -/
theorem stale_count_completes [Ip] (t u : Transfer) (ht : t.descNum ≠ 0) (hu : u.descNum ≠ 0)
    (hle : u.descNum ≤ t.descNum) :
    ∃ s, EventMachine.run (step true) idle (.queue t::(List.replicate t.descNum.toNat Event.exec ++
        [Event.writeback,.timeout,.queue u,.service])) =
      some (s,descs t.id t.descNum.toNat ++ [Out.done t.id .aborted,.done u.id .completed]) := by
  have hwrite : step true (atEnd t 0 [t]) .writeback =
      some ({ atEnd t 0 [t] with pollWb := t.descNum },[]) := by
    have hguard : true = true ∧ (atEnd t 0 [t]).hw.run = true ∧
        (atEnd t 0 [t]).hw.completedDescCount ≠ 0 := ⟨rfl,rfl,ht⟩
    rw [step,if_pos hguard,writeback_clean rfl]
    rfl
  have htimeout : step true { atEnd t 0 [t] with pollWb := t.descNum } .timeout =
      some (⟨⟨false,⟨true,false⟩,0,[]⟩,Ip.stop (atEnd t 0 [t]).hw,t.descNum⟩,
        [.done t.id .aborted]) := by
    simp [step,transferAbort,xdmaEngineStop,engineStatusRead,atEnd]
  have hstart : step true idle (.queue t) = some (started t [] 0,[]) :=
    congrArg (fun s => some (s,[])) (transferQueue_empty rfl rfl ht)
  have hqueue : step true ⟨⟨false,⟨true,false⟩,0,[]⟩,Ip.stop (atEnd t 0 [t]).hw,t.descNum⟩
      (.queue u) = some (started u [] t.descNum,[]) :=
    congrArg (fun s => some (s,[])) (transferQueue_empty rfl rfl hu)
  have hservice : ∃ s, step true (started u [] t.descNum) .service =
      some (s,[.done u.id .completed]) := by
    have hserved : cmplStatusProc (started u [] t.descNum) =
        engineServiceCount (xdmaEngineStop (started u [] 0)) t.descNum :=
      cmplStatusProc_served rfl rfl hu hle t.fits
    have hdone : (engineServiceCount (xdmaEngineStop (started u [] 0)) t.descNum).2 =
        [.done u.id .completed] := count_stale rfl rfl rfl ht hle
    exact ⟨_,congrArg some (hserved.trans (Prod.ext rfl hdone))⟩
  rcases hservice with ⟨s,hservice⟩
  have hchain := @run_chain _ true t []
  refine ⟨s,EventMachine.run_cons_iff.mpr ⟨_,[],_,hstart,EventMachine.run_append_iff.mpr
    ⟨_,_,_,hchain,?_,rfl⟩,rfl⟩⟩
  refine EventMachine.run_cons_iff.mpr ⟨_,_,_,hwrite,?_,rfl⟩
  refine EventMachine.run_cons_iff.mpr ⟨_,_,_,htimeout,?_,rfl⟩
  refine EventMachine.run_cons_iff.mpr ⟨_,_,_,hqueue,?_,rfl⟩
  exact EventMachine.run_cons_iff.mpr ⟨s,_,[],hservice,rfl,rfl⟩

theorem stale_count_completes_short : ∃ s, EventMachine.run (step true) idle
    [.queue longTransfer,.exec,.exec,.writeback,.timeout,.queue shortTransfer,.service] =
    some (s,[.desc 2 0,.desc 2 1,.done 2 .aborted,.done 1 .completed]) :=
  stale_count_completes longTransfer shortTransfer (by decide) (by decide) (by decide)
end FpgaTest.XdmaEngine
