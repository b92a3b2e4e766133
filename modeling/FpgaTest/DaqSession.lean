import FpgaTest.BusMaster
import FpgaTest.CountReplies
import FpgaTest.TriggerResponse

/-!
# Commands, registers and counts together

The message loop of the server on top of the register slave: the calls of
`Xil_Out32` and `Xil_In32` that the handlers make are the accesses of an
ordered bus master, and the value that a read returns is the one the reply to
`CLS:GetCount` prints. The traces run from any state the slave can be in, over
any handshakes and any waveforms of COUNT_SIG and TRIGGER_SIG.

A count that is read belongs to the edges behind the last clear, up to three
edges before the data is taken. With the trigger mode on, an edge counts when
it lies in a window of TRIGGER_WIDTH - TRIGGER_DLY + 1 edges, modulo the
32-bit wrap, that opens TRIGGER_DLY + 1 edges after an accepted trigger.
-/
namespace FpgaTest.DaqSession
open ClockedMachine CString CommandDispatch RegisterShadow CountReplies CounterSlave BusAccess
open BusMaster

/-- The access of a call; the slave decodes the low four address bits. -/
def busAccess (env : Env) : Effect → Option Access
  | .xilOut32 offset value => some (.write (BitVec.ofNat 4 offset) value)
  | .xilIn32 offset => some (.read (BitVec.ofNat 4 offset) env.pulseCount)
  | _ => none

def accesses (env : Env) (effects : List Effect) : List Access := effects.filterMap (busAccess env)

/-- The accesses of the messages, each dispatched with the variables that the
ones before it leave. -/
def sessionAccesses (lib : FloatLib) (g : Globals) : List Message → List Access
  | [] => []
  | m::ms => accesses m.env (process lib g m).2 ++ sessionAccesses lib (process lib g m).1 ms

/-- The accesses of `start_application`, which reads no register. -/
def startAccesses : List Access := accesses ⟨0,none,0⟩ startApplication.2

/-- The variables after the messages. -/
def globalsAfter (lib : FloatLib) (g : Globals) (ms : List Message) : Globals :=
  ms.foldl (fun g m => (process lib g m).1) g

/-- The trigger mode after a message. -/
def nextMode (mode : Bool) (m : Message) : Bool :=
  if commandOf m.frame = some .setTrgMode then (atoi m.value).getLsbD 0 else mode

/-- The accesses of a command. -/
def commandAccesses (lib : FloatLib) (mode : Bool) (m : Message) : Command → List Access
  | .getCount => [.read 0 m.env.pulseCount]
  | .setTrgMode => [.write 12 (modeConfig ((atoi m.value).getLsbD 0))]
  | .setTrgWidth => [.write 8 (m.convert (lib.atof m.value * 100))]
  | .setTrgDelay => [.write 4 (m.convert (lib.atof m.value * 100))]
  | .setClrCount => [.write 12 (modeConfig mode ||| 1#32),.write 12 (modeConfig mode)]
  | .setVolt | .setOffset | .getVolt => []

section Traces
variable {lib : FloatLib} {g : Globals} {m : Message}

theorem accesses_sendReply (env env' : Env) (reply : List Byte) :
    accesses env (sendReply env' reply) = [] := by
  unfold sendReply
  split_ifs <;> rfl

/-- What a message does to the variables and on the bus. -/
theorem process_accesses {mode : Bool} (hlen : m.frame.length = CommandServer.messageSize)
    (hg : g.pulseCounterConfig = modeConfig mode) :
    (process lib g m).1.pulseCounterConfig = modeConfig (nextMode mode m) ∧
      accesses m.env (process lib g m).2 =
        (commandOf m.frame).elim [] (commandAccesses lib mode m) := by
  cases hc : commandOf m.frame with
  | none =>
      rcases process_error lib g m hlen hc with ⟨cmd,hcmd⟩
      rw [hcmd,nextMode,hc]
      exact ⟨hg,rfl⟩
  | some c =>
      rw [process_running lib g m hlen hc,nextMode,hc]
      cases c with
      | getCount =>
          refine ⟨hg,?_⟩
          have hsend := accesses_sendReply m.env m.env
            (snprintf (bytesOf (toString m.env.pulseCount.toInt)))
          exact congrArg (Access.read 0 m.env.pulseCount :: ·) hsend
      | getVolt =>
          exact ⟨hg,accesses_sendReply m.env m.env
            (snprintf (lib.showFloat (inputVoltage m.env)))⟩
      | setTrgMode =>
          rw [outcome,setTriggerMode_config g hg]
          exact ⟨rfl,rfl⟩
      | setClrCount =>
          rw [outcome,setClear_config g hg]
          exact ⟨hg,rfl⟩
      | setVolt | setTrgWidth | setTrgDelay | setOffset => exact ⟨hg,rfl⟩

theorem sessionAccesses_append (lib : FloatLib) (g : Globals) (ms ns : List Message) :
    sessionAccesses lib g (ms ++ ns) =
      sessionAccesses lib g ms ++ sessionAccesses lib (globalsAfter lib g ms) ns := by
  induction ms generalizing g with
  | nil => rfl
  | cons m ms ih =>
      rw [List.cons_append,sessionAccesses,ih,sessionAccesses,List.append_assoc]
      rfl

theorem globalsAfter_session (lib : FloatLib) (ms : List Message) :
    globalsAfter lib startApplication.1 ms = (session lib ms).1 := by
  induction ms using List.reverseRecOn with
  | nil => rfl
  | append_singleton ms m ih =>
      rw [session_concat,turn,← ih,globalsAfter,List.foldl_append]
      rfl

/-- The settings that the messages ask for. -/
def given (lib : FloatLib) (ms : List Message) : Settings :=
  ⟨delayGiven lib ms,widthGiven lib ms,modeConfig (modeGiven ms)⟩

theorem perform_message {mode : Bool} (hlen : m.frame.length = CommandServer.messageSize)
    (hg : g.pulseCounterConfig = modeConfig mode) {delay width : BitVec 32} :
    (accesses m.env (process lib g m).2).foldl Settings.perform ⟨delay,width,modeConfig mode⟩ =
      { delay := if commandOf m.frame = some .setTrgDelay
          then m.convert (lib.atof m.value * 100) else delay
        width := if commandOf m.frame = some .setTrgWidth
          then m.convert (lib.atof m.value * 100) else width
        config := modeConfig (nextMode mode m) } := by
  rw [(process_accesses hlen hg).2,nextMode]
  cases hc : commandOf m.frame with
  | none => rfl
  | some c => cases c <;> rfl

theorem perform_session (lib : FloatLib) (t : Settings) {ms : List Message}
    (hlen : ∀ m ∈ ms, m.frame.length = CommandServer.messageSize) :
    (startAccesses ++ sessionAccesses lib startApplication.1 ms).foldl Settings.perform t =
      given lib ms := by
  induction ms using List.reverseRecOn with
  | nil => rfl
  | append_singleton ms m ih =>
      have hinit : ∀ x ∈ ms, x.frame.length = CommandServer.messageSize :=
        fun x hx => hlen x (List.mem_append_left _ hx)
      have hg : (globalsAfter lib startApplication.1 ms).pulseCounterConfig =
          modeConfig (modeGiven ms) := by
        rw [globalsAfter_session]
        exact (shadows_session lib ms hinit).config
      rw [sessionAccesses_append,← List.append_assoc,List.foldl_append,ih hinit,sessionAccesses,
        sessionAccesses,List.append_nil,given,
        perform_message (hlen m (List.mem_append_right _ (List.mem_singleton_self m))) hg]
      simp only [given,delayGiven,widthGiven,modeGiven,elim_lastRunning_concat,nextMode]

theorem forall_sessionAccesses (Q : Access → Prop) {mode : Bool} {ms : List Message}
    (hlen : ∀ m ∈ ms, m.frame.length = CommandServer.messageSize)
    (hg : g.pulseCounterConfig = modeConfig mode)
    (h : ∀ m ∈ ms, ∀ c mode, commandOf m.frame = some c →
      ∀ a ∈ commandAccesses lib mode m c, Q a) :
    ∀ a ∈ sessionAccesses lib g ms, Q a := by
  induction ms generalizing g mode with
  | nil => simp [sessionAccesses]
  | cons m ms ih =>
      rcases @process_accesses lib _ _ _ (hlen m List.mem_cons_self) hg with ⟨hnext,hacc⟩
      intro a ha
      rw [sessionAccesses,List.mem_append,hacc] at ha
      rcases ha with ha | ha
      · cases hc : commandOf m.frame with
        | none => simp [hc] at ha
        | some c =>
            rw [hc,Option.elim_some] at ha
            exact h m List.mem_cons_self c mode hc a ha
      · exact ih (fun x hx => hlen x (List.mem_cons_of_mem _ hx)) hnext
          (fun x hx => h x (List.mem_cons_of_mem _ hx)) a ha

theorem globalsAfter_config {mode : Bool} {ms : List Message}
    (hlen : ∀ m ∈ ms, m.frame.length = CommandServer.messageSize)
    (hg : g.pulseCounterConfig = modeConfig mode) :
    ∃ mode', (globalsAfter lib g ms).pulseCounterConfig = modeConfig mode' := by
  induction ms generalizing g mode with
  | nil => exact ⟨mode,hg⟩
  | cons m ms ih =>
      exact ih (fun x hx => hlen x (List.mem_cons_of_mem _ hx))
        (process_accesses (hlen m List.mem_cons_self) hg).1

theorem sessionAccesses_getCount {mode : Bool} {get : Message}
    (hlen : get.frame.length = CommandServer.messageSize)
    (hg : g.pulseCounterConfig = modeConfig mode) (hget : Names .getCount get.frame) :
    sessionAccesses lib g [get] = [.read 0 get.env.pulseCount] := by
  rw [sessionAccesses,sessionAccesses,List.append_nil,(process_accesses hlen hg).2,
    (commandOf_eq_some hlen _).mpr hget]
  rfl

theorem clear_stays_low {mode : Bool} {ms : List Message}
    (hlen : ∀ m ∈ ms, m.frame.length = CommandServer.messageSize)
    (hg : g.pulseCounterConfig = modeConfig mode)
    (hno : ∀ m ∈ ms, ¬ Names .setClrCount m.frame) :
    ∀ a ∈ sessionAccesses lib g ms, ∀ t : Settings, t.config.getLsbD 0 = false →
      (t.perform a).config.getLsbD 0 = false := by
  apply forall_sessionAccesses
    (fun a => ∀ t : Settings, t.config.getLsbD 0 = false →
      (t.perform a).config.getLsbD 0 = false) hlen hg
  intro m hm c mode hc a ha t ht
  cases c with
  | setClrCount => exact absurd ((commandOf_eq_some (hlen m hm) _).mp hc) (hno m hm)
  | setTrgMode =>
      rw [List.mem_singleton.mp ha]
      exact (modeConfig_bits _).1
  | getCount | setTrgWidth | setTrgDelay =>
      rw [List.mem_singleton.mp ha]
      exact ht
  | setVolt | setOffset | getVolt => cases ha

/-- Messages that do not name them keep the two registers of the gate. -/
theorem gate_registers_stay {mode : Bool} {ms : List Message}
    (hlen : ∀ m ∈ ms, m.frame.length = CommandServer.messageSize)
    (hg : g.pulseCounterConfig = modeConfig mode)
    (hno : ∀ m ∈ ms, ¬ Names .setTrgWidth m.frame ∧ ¬ Names .setTrgDelay m.frame) :
    ∀ a ∈ sessionAccesses lib g ms, ∀ t : Settings,
      (t.perform a).delay = t.delay ∧ (t.perform a).width = t.width := by
  apply forall_sessionAccesses
    (fun a => ∀ t : Settings, (t.perform a).delay = t.delay ∧ (t.perform a).width = t.width) hlen hg
  intro m hm c mode hc a ha t
  have hname := (commandOf_eq_some (hlen m hm) c).mp hc
  cases c with
  | setTrgWidth => exact absurd hname (hno m hm).1
  | setTrgDelay => exact absurd hname (hno m hm).2
  | setClrCount =>
      simp only [commandAccesses,List.mem_cons,List.not_mem_nil,or_false] at ha
      rcases ha with rfl | rfl
      · exact ⟨rfl,rfl⟩
      · exact ⟨rfl,rfl⟩
  | getCount | setTrgMode =>
      rw [List.mem_singleton.mp ha]
      exact ⟨rfl,rfl⟩
  | setVolt | setOffset | getVolt => cases ha

/-- The message sets neither the trigger mode nor one of the two registers of
the gate. -/
def KeepsTrigger (m : Message) : Prop :=
  ¬ Names .setTrgMode m.frame ∧ ¬ Names .setTrgWidth m.frame ∧ ¬ Names .setTrgDelay m.frame

theorem settings_stay {mode : Bool} {ms : List Message}
    (hlen : ∀ m ∈ ms, m.frame.length = CommandServer.messageSize)
    (hg : g.pulseCounterConfig = modeConfig mode)
    (hno : ∀ m ∈ ms, ¬ Names .setClrCount m.frame) (hkeep : ∀ m ∈ ms, KeepsTrigger m) :
    ∀ a ∈ sessionAccesses lib g ms, ∀ t : Settings, t.perform a = t := by
  apply forall_sessionAccesses (fun a => ∀ t : Settings, t.perform a = t) hlen hg
  intro m hm c mode hc a ha t
  have hname := (commandOf_eq_some (hlen m hm) c).mp hc
  cases c with
  | setClrCount => exact absurd hname (hno m hm)
  | setTrgMode => exact absurd hname (hkeep m hm).1
  | setTrgWidth => exact absurd hname (hkeep m hm).2.1
  | setTrgDelay => exact absurd hname (hkeep m hm).2.2
  | getCount =>
      rw [List.mem_singleton.mp ha]
      rfl
  | setVolt | setOffset | getVolt => cases ha

end Traces

section Example

/-- The start, `CLS:SetTrgMode 1`, `CLS:SetClrCount` and `CLS:GetCount` with
every write taken at once and the count taken at edge 20. TRIGGER_SIG rises in
cycle 12, COUNT_SIG in cycles 14 and 16. -/
def measured (n : ℕ) : Input where
  aresetn := true
  resetBtn := false
  countSig := decide (n = 14 ∨ n = 16)
  triggerSig := decide (12 ≤ n)
  awaddr := if n ≤ 1 then 4 else if n ≤ 3 then 8 else 12
  awvalid := decide (n < 12 ∧ n % 2 = 1)
  wdata := if n = 7 ∨ n = 11 then 2 else if n = 9 then 3 else 0
  wstrb := 15
  wvalid := decide (n < 12 ∧ n % 2 = 1)
  bready := true
  araddr := 0
  arvalid := decide (n = 13)
  rready := decide (n = 20)

def trgMode : Message := ⟨⟨0,none,0⟩,encode .setTrgMode (bytesOf "1"),0⟩
def clrCount : Message := ⟨⟨0,none,0⟩,encode .setClrCount [],0⟩
def getCount : Message := ⟨⟨1,none,31⟩,encode .getCount [],0⟩

theorem measured_before : Performs powerUp measured 0
    (startAccesses ++ sessionAccesses silentLib startApplication.1 [trgMode]) 9 := by
  have hlist : startAccesses ++ sessionAccesses silentLib startApplication.1 [trgMode] =
      [.write 4 0,.write 8 0,.write 12 0,.write 12 2] := by decide
  rw [hlist]
  refine .wait ⟨by decide,by decide,by decide⟩ ?_
  refine .write_once (by decide) (by decide) (by decide) (by decide) ?_
  refine .write_once (by decide) (by decide) (by decide) (by decide) ?_
  refine .write_once (by decide) (by decide) (by decide) (by decide) ?_
  exact .write_once (by decide) (by decide) (by decide) (by decide) (.done 9)

theorem measured_read : ReadAccess powerUp measured 0 13 13 20 where
  start := le_rfl
  presented := by
    intro k hk hka
    obtain rfl : k = 13 := by omega
    decide
  refused := by omega
  taken := by decide
  later := by decide
  pending := by
    intro k hk hkr h
    have hr : k = 20 := by simpa [measured] using h.2
    omega
  answered := by decide

theorem measured_after : Performs powerUp measured 9
    (sessionAccesses silentLib (session silentLib [trgMode]).1 [clrCount,getCount]) 21 := by
  have hdata : rdata (run (step false) powerUp measured 20) = 1 := by decide
  have hlist : sessionAccesses silentLib (session silentLib [trgMode]).1 [clrCount,getCount] =
      [.write 12 3,.write 12 2,.read 0 (rdata (run (step false) powerUp measured 20))] := by
    rw [hdata]
    decide
  rw [hlist]
  refine .write_once (by decide) (by decide) (by decide) (by decide) ?_
  refine .write_once (by decide) (by decide) (by decide) (by decide) ?_
  refine .read measured_read ?_ ?_ (.done 21)
  · intro k hk _
    simp [measured,show ¬ k < 12 by omega]
  · intro k hk _
    simp [measured,show k ≠ 13 by omega]

end Example

/-- The registers of the slave hold the settings of the last commands of each
kind after every session, over whatever handshakes its accesses are performed. -/
theorem registers_reach_device (lib : FloatLib) (ms : List Message) (s : State)
    (input : ℕ → Input) (n m : ℕ) (hr : ∀ k, (input k).aresetn = true)
    (hlen : ∀ x ∈ ms, x.frame.length = CommandServer.messageSize)
    (h : Performs s input n (startAccesses ++ sessionAccesses lib startApplication.1 ms) m) :
    settings (run (step false) s input m) = given lib ms := by
  rw [h.settings_end hr,perform_session lib _ hlen]

theorem registers_reach_device_measured :
    settings (run (step false) powerUp measured 9) = given silentLib [trgMode] ∧
      given silentLib [trgMode] = ⟨0,0,2⟩ :=
  ⟨registers_reach_device silentLib [trgMode] powerUp measured 0 9 (fun _ => rfl) (by decide)
    measured_before,by decide⟩

section Counting
variable {lib : FloatLib} {g : Globals} {s : State} {input : ℕ → Input}

/-- Edge `i` acts on a rise of COUNT_SIG, which two registers have sampled. -/
def rises (input : ℕ → Input) (i : ℕ) : Bool := (input (i-1)).countSig && !(input (i-2)).countSig

/-- The edges of the interval `(c, n]` that count: the trigger mode is off or
the gate is open. -/
def countedPulses (s : State) (input : ℕ → Input) (c n : ℕ) : Finset ℕ :=
  (Finset.Ioc c n).filter fun i => (rises input i &&
    (!(settings (run (step false) s input i)).config.getLsbD 1 ||
      (run (step false) s input i).core.gate.isTrigger)) = true

theorem countSample_eq (hb : ∀ k, (input k).resetBtn = false) {i : ℕ} (hi : 0 < i) :
    PulseTally.countSample s.core (corePorts s input) i = (input (i-1)).countSig := by
  obtain ⟨k,rfl⟩ : ∃ k, i = k+1 := ⟨i-1,by omega⟩
  simp [PulseTally.countSample,corePorts,coreInput,PulseCounter.Input.reset,hb]

theorem countedEdges_eq (hb : ∀ k, (input k).resetBtn = false) {c : ℕ} (hc : 0 < c) (n : ℕ) :
    PulseTally.countedEdges s.core (corePorts s input) c n = countedPulses s input c n := by
  apply Finset.filter_congr
  intro i hi
  rw [Finset.mem_Ioc] at hi
  have hgate : (run PulseCounter.step s.core (corePorts s input) i).gate =
      (run (step false) s input i).core.gate := by
    rw [core_run]
    rfl
  rw [PulseTally.counted,countSample_eq hb (by omega),countSample_eq hb (by omega),
    PulseTally.admitted,hgate]
  rfl

/-- A clear, other messages and a read of the count: the clear bit is high at
the edge `c` for the last time, and the data taken at `r` is the count word.
What the messages between keep holds behind `c`. -/
theorem clear_to_read {mode : Bool} {between : List Message} {clr get : Message} {q n : ℕ}
    (P : Settings → Prop) (hs : s.read.Consistent) (hr : ∀ k, (input k).aresetn = true)
    (hlen : ∀ m ∈ clr::(between ++ [get]), m.frame.length = CommandServer.messageSize)
    (hg : g.pulseCounterConfig = modeConfig mode) (hclr : Names .setClrCount clr.frame)
    (hget : Names .getCount get.frame)
    (h : Performs s input q (sessionAccesses lib g (clr::(between ++ [get]))) n)
    (hP : P { settings (run (step false) s input q) with config := modeConfig mode })
    (hkeep : ∀ g : Globals, g.pulseCounterConfig = modeConfig mode →
      ∀ a ∈ sessionAccesses lib g between, ∀ t, P t → P (t.perform a)) :
    ∃ c r, (q < c ∧ c+3 ≤ r ∧ r < n) ∧
      (settings (run (step false) s input c)).config.getLsbD 0 = true ∧
      (∀ k, c < k → k ≤ n → P (settings (run (step false) s input k))) ∧
      get.env.pulseCount = rdata (run (step false) s input r) ∧
      (run (step false) s input r).read.araddr = 0 ∧
      (run (step false) s input r).read.rvalid = true ∧ (input r).rready = true := by
  have hlenBetween : ∀ m ∈ between, m.frame.length = CommandServer.messageSize :=
    fun m hm => hlen m (List.mem_cons_of_mem _ (List.mem_append_left _ hm))
  have hclr' := (commandOf_eq_some (hlen clr List.mem_cons_self) _).mpr hclr
  rcases @process_accesses lib _ _ _ (hlen clr List.mem_cons_self) hg with ⟨hg1,hacc⟩
  rw [nextMode,hclr'] at hg1
  rcases @globalsAfter_config lib _ _ _ hlenBetween hg1 with ⟨mode',hg2⟩
  have hread := @sessionAccesses_getCount lib _ _ _ (hlen get (by simp)) hg2 hget
  -- the two writes of the clear
  rw [sessionAccesses,hacc,hclr'] at h
  simp only [Option.elim_some,commandAccesses,List.cons_append,List.nil_append] at h
  rcases h.first_write hr with ⟨p1,b1,hp1,hb1,h1,-,hset⟩
  rcases h1.first_write hr with ⟨p2,b2,hp2,hb2,h2,hheld,hcleared⟩
  have hstart : ∀ k, p2 < k → k ≤ b2+1 → P (settings (run (step false) s input k)) := by
    intro k hk hkb
    rw [hcleared k hk hkb,hset (b1+1) (by omega) le_rfl]
    exact hP
  -- the messages between, and the read
  rw [sessionAccesses_append,hread] at h2
  have hrest : ∀ a ∈ sessionAccesses lib (process lib g clr).1 between ++
      [.read 0 get.env.pulseCount], ∀ t, P t → P (t.perform a) := by
    intro a ha t ht
    rcases List.mem_append.mp ha with ha | ha
    · exact hkeep _ hg1 a ha t ht
    · rw [List.mem_singleton.mp ha]
      exact ht
  rcases h2.split with ⟨n3,hbetween,h3⟩
  have hn3 := hbetween.le
  rcases h3.first_read hr hs with ⟨r,hr3,hlast,hans,haddr,hv,hy,-⟩
  have hend := hlast.le
  refine ⟨p2,r,⟨by omega,by omega,by omega⟩,?_,?_,hans,haddr,hv,hy⟩
  · rw [hheld p2 hp2 le_rfl,hset (b1+1) (by omega) le_rfl]
    simp [Settings.perform,Settings.store,word]
  · intro k hk hkn
    by_cases hkb : k ≤ b2+1
    · exact hstart k hk hkb
    · exact h2.invariant hr P (hstart (b2+1) (by omega) le_rfl) hrest k (by omega) hkn

/-- The count word, read at the edge `r`, counts the pulses behind the last
edge with the clear bit up to three edges before `r`. -/
theorem count_word {c r : ℕ} (hr : ∀ k, (input k).aresetn = true)
    (hb : ∀ k, (input k).resetBtn = false) (hc : 0 < c) (hcr : c+3 ≤ r)
    (hclear : (settings (run (step false) s input c)).config.getLsbD 0 = true)
    (hlow : ∀ k, c < k → k ≤ r → (settings (run (step false) s input k)).config.getLsbD 0 = false)
    (haddr : (run (step false) s input r).read.araddr = 0) :
    rdata (run (step false) s input r) =
      BitVec.ofNat 32 (countedPulses s input c (r-3)).card := by
  have hcount := @PulseTally.pulseCount_eq_card s.core (corePorts s input) c (r-3) (by omega)
    (by rw [corePorts_cleared hb]; exact hclear)
    (fun k hk hkr => by rw [corePorts_cleared hb]; exact hlow k hk (by omega))
  rw [← countedEdges_eq hb hc,← hcount,rdata,haddr]
  obtain ⟨k,rfl⟩ : ∃ k, r = k+3 := ⟨r-3,by omega⟩
  rw [show k+3 = k+1+2 from rfl,slvReg0_eq false hr,core_run]
  rfl

theorem read_consistent_of_reachable (hs : Reachable s) : s.read.Consistent := by
  rcases hs with ⟨history,n,rfl⟩
  exact read_consistent false history read_powerUp n

theorem process_reply {get : Message} {N : ℕ} (hlen : get.frame.length = CommandServer.messageSize)
    (hget : Names .getCount get.frame)
    (hroom : (countReply get.env.pulseCount).length ≤ get.env.sndbuf)
    (hcount : get.env.pulseCount = BitVec.ofNat 32 N) (g : Globals) :
    ∃ reply, process lib g get =
        (g,[.xilIn32 saxiPulseCountOffset,.tcpWrite reply,.tcpOutput]) ∧
      parseSigned reply = some ((N : ℤ).bmod (2^32)) := by
  refine ⟨_,process_getCount lib g hlen hget hroom,?_⟩
  rw [countReply_eq,parseSigned_numeral,hcount,BitVec.toInt_ofNat']

end Counting

/-- What a client reads after `CLS:SetClrCount`, other commands and
`CLS:GetCount` is the number of counted pulses behind the clear, up to three
edges before the count is taken from the bus, in the range of `int`. -/
theorem count_reply (lib : FloatLib) (before between : List Message) (clr get : Message)
    (s : State) (input : ℕ → Input) (q n : ℕ) (hs : Reachable s)
    (hr : ∀ k, (input k).aresetn = true) (hb : ∀ k, (input k).resetBtn = false)
    (hlen : ∀ m ∈ before ++ clr::(between ++ [get]), m.frame.length = CommandServer.messageSize)
    (hclr : Names .setClrCount clr.frame) (hget : Names .getCount get.frame)
    (hbetween : ∀ m ∈ between, ¬ Names .setClrCount m.frame)
    (hroom : (countReply get.env.pulseCount).length ≤ get.env.sndbuf)
    (h : Performs s input q (startAccesses ++
      sessionAccesses lib startApplication.1 (before ++ clr::(between ++ [get]))) n) :
    ∃ c r reply, (q < c ∧ c+3 ≤ r ∧ r < n) ∧
      ((settings (run (step false) s input c)).config.getLsbD 0 = true ∧
        ∀ k, c < k → k ≤ n →
          (settings (run (step false) s input k)).config.getLsbD 0 = false) ∧
      ((run (step false) s input r).read.rvalid = true ∧ (input r).rready = true) ∧
      (process lib (session lib (before ++ clr::between)).1 get).2 =
        [.xilIn32 saxiPulseCountOffset,.tcpWrite reply,.tcpOutput] ∧
      parseSigned reply = some (((countedPulses s input c (r-3)).card : ℤ).bmod (2^32)) := by
  have hlenBefore : ∀ m ∈ before, m.frame.length = CommandServer.messageSize :=
    fun m hm => hlen m (List.mem_append_left _ hm)
  have hlenRest : ∀ m ∈ clr::(between ++ [get]), m.frame.length = CommandServer.messageSize :=
    fun m hm => hlen m (List.mem_append_right _ hm)
  have hlenBetween : ∀ m ∈ between, m.frame.length = CommandServer.messageSize :=
    fun m hm => hlenRest m (List.mem_cons_of_mem _ (List.mem_append_left _ hm))
  have hg : (globalsAfter lib startApplication.1 before).pulseCounterConfig =
      modeConfig (modeGiven before) := by
    rw [globalsAfter_session]
    exact (shadows_session lib before hlenBefore).config
  rw [sessionAccesses_append,← List.append_assoc] at h
  rcases h.split with ⟨p,hfirst,hrest⟩
  have hqp := hfirst.le
  rcases clear_to_read (fun t => t.config.getLsbD 0 = false) (read_consistent_of_reachable hs) hr
    hlenRest hg hclr hget hrest (modeConfig_bits _).1
    (fun g hg => clear_stays_low hlenBetween hg hbetween) with
    ⟨c,r,⟨hpc,hcr,hrn⟩,hset,hlow,hans,haddr,hvalid,hready⟩
  have hcount := hans.trans (count_word hr hb (by omega) hcr hset
    (fun k hk hkr => hlow k hk (by omega)) haddr)
  rcases @process_reply lib _ _ (hlenRest get (by simp)) hget hroom hcount
    (session lib (before ++ clr::between)).1 with ⟨reply,hreply,hparse⟩
  exact ⟨c,r,reply,⟨by omega,hcr,hrn⟩,⟨hset,hlow⟩,⟨hvalid,hready⟩,congrArg Prod.snd hreply,hparse⟩

/-- The pulse of cycle 14 finds the gate open and the one of cycle 16 does not. -/
theorem count_reply_measured : (∃ c r reply,
    (process silentLib (session silentLib [trgMode,clrCount]).1 getCount).2 =
      [.xilIn32 saxiPulseCountOffset,.tcpWrite reply,.tcpOutput] ∧
    parseSigned reply = some (((countedPulses powerUp measured c (r-3)).card : ℤ).bmod (2^32))) ∧
    (countedPulses powerUp measured 11 17).card = 1 := by
  have hlist : startAccesses ++ sessionAccesses silentLib startApplication.1
      ([trgMode] ++ clrCount::([] ++ [getCount])) =
      startAccesses ++ sessionAccesses silentLib startApplication.1 [trgMode] ++
        sessionAccesses silentLib (session silentLib [trgMode]).1 [clrCount,getCount] := by
    rw [sessionAccesses_append,globalsAfter_session,List.append_assoc]
    rfl
  obtain ⟨c,r,reply,-,-,-,hreply,hparse⟩ := count_reply silentLib [trgMode] [] clrCount getCount
    powerUp measured 0 21 ⟨measured,0,rfl⟩ (fun _ => rfl) (fun _ => rfl) (by decide)
    ((names_encode_iff _ _ (by simp)).mpr rfl) ((names_encode_iff _ _ (by simp)).mpr rfl) (by simp)
    (by decide) (hlist ▸ measured_before.append measured_after)
  exact ⟨⟨c,r,reply,hreply,hparse⟩,by decide⟩

section Windows
open PulseCounter TriggerGate TriggerResponse WrappingCounter

theorem exists_opening {s : PulseCounter.State} {input : ℕ → PulseCounter.Input} (n : ℕ)
    (hclosed : gateTrace s input 0 = false) (hopen : gateTrace s input n = true) :
    ∃ e < n, Opens s input e ∧ ∀ k, e < k → k ≤ n → gateTrace s input k = true := by
  induction n with
  | zero =>
      rw [hclosed] at hopen
      contradiction
  | succ n ih =>
      cases hn : gateTrace s input n with
      | false =>
          refine ⟨n,Nat.lt_succ_self n,⟨hn,hopen⟩,?_⟩
          intro k hk hkn
          rw [Nat.le_antisymm hkn hk]
          exact hopen
      | true =>
          rcases ih hn with ⟨e,hen,hopens,hsince⟩
          refine ⟨e,by omega,hopens,?_⟩
          intro k hk hkn
          rcases Nat.eq_or_lt_of_le hkn with rfl | hlt
          · exact hopen
          · exact hsince k hk (by omega)

/-- With steady registers the gate is open in one window behind each accepted
trigger. -/
theorem gateTrace_iff {s : PulseCounter.State} {input : ℕ → PulseCounter.Input}
    {dly width : BitVec 32} (h : Steady input dly width) (hs : Regular s.gate)
    (hidel : s.gate.tstate = .idel) (n : ℕ) :
    gateTrace s input n = true ↔ ∃ a, Accepted s input a ∧ a+dly.toNat+1 < n ∧
      n ≤ a+dly.toNat+1+(remaining width dly + 1) := by
  constructor
  · intro hopen
    have hclosed : gateTrace s input 0 = false := by
      have hreg := hs.isTrigger
      rw [hidel] at hreg
      simpa [gateTrace,run] using hreg
    rcases exists_opening n hclosed hopen with ⟨e,hen,hopens,hsince⟩
    rcases (opens_iff h hs hidel e).mp hopens with ⟨a,rfl,ha⟩
    have hlen := gate_length h hopens.1 hopens.2
    refine ⟨a,ha,hen,?_⟩
    by_contra hlate
    have hlast := hsince (a+dly.toNat+1+1+(remaining width dly + 1)) (by omega) (by omega)
    rw [hlen.2] at hlast
    contradiction
  · rintro ⟨a,ha,hlo,hhi⟩
    have hopens := opens_of_accepted h hs ha
    have hlen := gate_length h hopens.1 hopens.2
    have hhigh := hlen.1 (n-(a+dly.toNat+1+1)) (by omega)
    rwa [show a+dly.toNat+1+1+(n-(a+dly.toNat+1+1)) = n by omega] at hhigh

end Windows

section Measurement
open TriggerGate TriggerResponse WrappingCounter
variable {s : State} {input : ℕ → Input} {dly width : BitVec 32} {q n : ℕ}

/-- Edge `a` acts on a rise of TRIGGER_SIG and finds the gate idle. -/
def triggersAt (s : State) (input : ℕ → Input) (a : ℕ) : Bool :=
  decide ((run (step false) s input a).core.gate.tstate = .idel) &&
    ((input (a-1)).triggerSig && !(input (a-2)).triggerSig)

/-- Edge `i` lies in the window of a trigger from edge `q` on. -/
def InWindow (s : State) (input : ℕ → Input) (dly width : BitVec 32) (q i : ℕ) : Prop :=
  ∃ a < i, q ≤ a ∧ triggersAt s input a = true ∧ a+dly.toNat+1 < i ∧
    i ≤ a+dly.toNat+1+(remaining width dly + 1)

instance (s : State) (input : ℕ → Input) (dly width : BitVec 32) (q i : ℕ) :
    Decidable (InWindow s input dly width q i) :=
  inferInstanceAs (Decidable (∃ a < i, _))

/-- The ports of the core from edge `q` on, held from edge `n` on. -/
def heldPorts (s : State) (input : ℕ → Input) (dly width : BitVec 32) (q n k : ℕ) :
    PulseCounter.Input :=
  if q+k < n then corePorts s input (q+k) else ⟨true,false,false,false,dly,width,0⟩

theorem steady_heldPorts (hb : ∀ k, (input k).resetBtn = false)
    (hset : ∀ k, q ≤ k → k ≤ n → (settings (run (step false) s input k)).delay = dly ∧
      (settings (run (step false) s input k)).width = width) :
    Steady (heldPorts s input dly width q n) dly width := by
  constructor
  · intro k
    unfold heldPorts
    split_ifs
    · simp [corePorts,coreInput,PulseCounter.Input.reset,hb]
    · rfl
  · intro k
    unfold heldPorts
    split_ifs with hk
    · exact (hset (q+k) (by omega) hk.le).1
    · rfl
  · intro k
    unfold heldPorts
    split_ifs with hk
    · exact (hset (q+k) (by omega) hk.le).2
    · rfl

theorem core_heldPorts {k : ℕ} (hk : q+k ≤ n) :
    (run (step false) s input (q+k)).core =
      run PulseCounter.step (run (step false) s input q).core
        (heldPorts s input dly width q n) k := by
  have hports : ∀ j < k, corePorts s input (q+j) = heldPorts s input dly width q n j := by
    intro j hj
    rw [heldPorts,if_pos (by omega)]
  rw [core_run,core_run false s input q,run_add]
  exact run_congr PulseCounter.step _ hports

theorem triggerRise_pins (hb : ∀ k, (input k).resetBtn = false) {a : ℕ} (ha : 2 ≤ a) :
    (run (step false) s input a).core.sampler.triggerRise =
      ((input (a-1)).triggerSig && !(input (a-2)).triggerSig) := by
  obtain ⟨k,rfl⟩ : ∃ k, a = k+2 := ⟨a-2,by omega⟩
  rw [run_succ,run_succ,step_core,step_core,PulseCounter.step_sampler,PulseCounter.step_sampler]
  simp [PulseCounter.Sampler.triggerRise,PulseCounter.Sampler.step,coreInput,
    PulseCounter.Input.reset,hb]

/-- From an edge with the gate idle on, as long as the two registers stay, the
gate is open in the windows of the triggers. -/
theorem gate_open_iff (hb : ∀ k, (input k).resetBtn = false) (hq : 2 ≤ q)
    (hreg : Regular (run (step false) s input q).core.gate)
    (hidel : (run (step false) s input q).core.gate.tstate = .idel)
    (hset : ∀ k, q ≤ k → k ≤ n → (settings (run (step false) s input k)).delay = dly ∧
      (settings (run (step false) s input k)).width = width) {i : ℕ} (hqi : q ≤ i) (hin : i ≤ n) :
    (run (step false) s input i).core.gate.isTrigger = true ↔ InWindow s input dly width q i := by
  have hsteady := steady_heldPorts hb hset
  have haccepted : ∀ k, q+k ≤ n → (Accepted (run (step false) s input q).core
      (heldPorts s input dly width q n) k ↔ triggersAt s input (q+k) = true) := by
    intro k hk
    rw [Accepted,← core_heldPorts hk,triggerRise_pins hb (by omega)]
    simp only [triggersAt,Bool.and_eq_true,decide_eq_true_eq]
  obtain ⟨j,rfl⟩ : ∃ j, i = q+j := ⟨i-q,by omega⟩
  have hopen := gateTrace_iff hsteady hreg hidel j
  rw [gateTrace,← core_heldPorts hin] at hopen
  rw [hopen]
  constructor
  · rintro ⟨k,hk,hlo,hhi⟩
    exact ⟨q+k,by omega,by omega,(haccepted k (by omega)).mp hk,by omega,by omega⟩
  · rintro ⟨a,hai,hqa,ha,hlo,hhi⟩
    obtain ⟨k,rfl⟩ : ∃ k, a = q+k := ⟨a-q,by omega⟩
    exact ⟨k,(haccepted k (by omega)).mpr ha,by omega,by omega⟩

theorem regular_reachable (hs : Reachable s) : Regular s.core.gate := by
  rcases hs with ⟨history,n,rfl⟩
  induction n with
  | zero => exact ⟨fun _ => rfl,by simp [run,powerUp,PulseCounter.powerUp]⟩
  | succ n ih =>
      rw [run_succ,step_core,PulseCounter.step_gate]
      cases hr : (coreInput false (run (step false) powerUp history n) (history n)).reset with
      | true =>
          rw [PulseCounter.gate_reset hr]
          exact ⟨fun _ => rfl,by simp⟩
      | false => exact regular_step hr ih

theorem reachable_run (hs : Reachable s) (n : ℕ) : Reachable (run (step false) s input n) := by
  rcases hs with ⟨history,m,rfl⟩
  refine ⟨fun k => if k < m then history k else input (k-m),m+n,?_⟩
  rw [run_add]
  have hfirst : run (step false) powerUp history m =
      run (step false) powerUp (fun k => if k < m then history k else input (k-m)) m := by
    apply run_congr
    intro k hk
    rw [if_pos hk]
  rw [← hfirst]
  apply run_congr
  intro k _
  simp

theorem not_names {frame : List Byte} {c d : Command}
    (hlen : frame.length = CommandServer.messageSize) (hc : Names c frame) (hne : c ≠ d) :
    ¬ Names d frame := by
  intro hd
  rw [← commandOf_eq_some hlen] at hc hd
  exact hne (Option.some_injective _ (hc.symm.trans hd))

theorem countedPulses_eq_windows {c m : ℕ} (hm : m ≤ n) (hqc : q ≤ c)
    (hmode : ∀ k, c < k → k ≤ n →
      (settings (run (step false) s input k)).config = modeConfig true)
    (hgate : ∀ i, q ≤ i → i ≤ n → ((run (step false) s input i).core.gate.isTrigger = true ↔
      InWindow s input dly width q i)) :
    countedPulses s input c m = (Finset.Ioc c m).filter fun i =>
      rises input i = true ∧ InWindow s input dly width q i := by
  apply Finset.filter_congr
  intro i hi
  rw [Finset.mem_Ioc] at hi
  rw [hmode i hi.1 (by omega),(modeConfig_bits true).2.1,← hgate i (by omega) (by omega)]
  simp

end Measurement

/-- A triggered measurement: with the mode on and the gate idle before
`CLS:SetClrCount`, the client reads the number of pulses in the windows that
the settings of its commands open behind the triggers. -/
theorem triggered_count_reply (lib : FloatLib) (before between : List Message)
    (clr get : Message) (s : State) (input : ℕ → Input) (p q n : ℕ) (hs : Reachable s)
    (hr : ∀ k, (input k).aresetn = true) (hb : ∀ k, (input k).resetBtn = false)
    (hlen : ∀ m ∈ before ++ clr::(between ++ [get]), m.frame.length = CommandServer.messageSize)
    (hclr : Names .setClrCount clr.frame) (hget : Names .getCount get.frame)
    (hbetween : ∀ m ∈ between, ¬ Names .setClrCount m.frame ∧ KeepsTrigger m)
    (hroom : (countReply get.env.pulseCount).length ≤ get.env.sndbuf)
    (hmode : modeGiven before = true)
    (hbefore : Performs s input p
      (startAccesses ++ sessionAccesses lib startApplication.1 before) q)
    (hidel : (run (step false) s input q).core.gate.tstate = .idel)
    (h : Performs s input q
      (sessionAccesses lib (session lib before).1 (clr::(between ++ [get]))) n) :
    ∃ c r reply, (q < c ∧ c+3 ≤ r ∧ r < n) ∧
      ((settings (run (step false) s input c)).config.getLsbD 0 = true ∧
        ∀ k, c < k → k ≤ n → settings (run (step false) s input k) = given lib before) ∧
      ((run (step false) s input r).read.rvalid = true ∧ (input r).rready = true) ∧
      (process lib (session lib (before ++ clr::between)).1 get).2 =
        [.xilIn32 saxiPulseCountOffset,.tcpWrite reply,.tcpOutput] ∧
      parseSigned reply = some ((((Finset.Ioc c (r-3)).filter fun i => rises input i = true ∧
        InWindow s input (delayGiven lib before) (widthGiven lib before) q i).card : ℤ).bmod
          (2^32)) := by
  have hlenBefore : ∀ m ∈ before, m.frame.length = CommandServer.messageSize :=
    fun m hm => hlen m (List.mem_append_left _ hm)
  have hlenRest : ∀ m ∈ clr::(between ++ [get]), m.frame.length = CommandServer.messageSize :=
    fun m hm => hlen m (List.mem_append_right _ hm)
  have hlenBetween : ∀ m ∈ between, m.frame.length = CommandServer.messageSize :=
    fun m hm => hlenRest m (List.mem_cons_of_mem _ (List.mem_append_left _ hm))
  have hg := (shadows_session lib before hlenBefore).config
  have hq : 2 ≤ q := by
    rcases hbefore.first_write hr with ⟨a,b,-,hab,hlast,-,-⟩
    have hle := hlast.le
    omega
  have hstart : settings (run (step false) s input q) = given lib before := by
    rw [hbefore.settings_end hr,perform_session lib _ hlenBefore]
  -- the delay and the width stay, so the gate follows the windows
  have hno : ∀ m ∈ clr::(between ++ [get]),
      ¬ Names .setTrgWidth m.frame ∧ ¬ Names .setTrgDelay m.frame := by
    intro m hm
    have hlenm := hlenRest m hm
    rcases List.mem_cons.mp hm with rfl | hm
    · exact ⟨not_names hlenm hclr (by decide),not_names hlenm hclr (by decide)⟩
    · rcases List.mem_append.mp hm with hm | hm
      · exact (hbetween m hm).2.2
      · obtain rfl := List.mem_singleton.mp hm
        exact ⟨not_names hlenm hget (by decide),not_names hlenm hget (by decide)⟩
  have hset := h.invariant hr
    (fun t => t.delay = delayGiven lib before ∧ t.width = widthGiven lib before)
    (by rw [hstart]; exact ⟨rfl,rfl⟩)
    (fun a ha t ht => by
      rcases gate_registers_stay hlenRest hg hno a ha t with ⟨hd,hw⟩
      exact ⟨hd.trans ht.1,hw.trans ht.2⟩)
  have hgate := fun i hqi hin => gate_open_iff (i := i) hb hq
    (regular_reachable (reachable_run hs q)) hidel hset hqi hin
  -- the clear and the read
  rcases clear_to_read (fun t => t = given lib before) (read_consistent_of_reachable hs) hr
    hlenRest hg hclr hget h (by rw [hstart]; rfl)
    (fun g hg a ha t ht => by
      rw [settings_stay hlenBetween hg (fun m hm => (hbetween m hm).1)
        (fun m hm => (hbetween m hm).2) a ha t]
      exact ht) with ⟨c,r,⟨hqc,hcr,hrn⟩,hclear,hkept,hans,haddr,hvalid,hready⟩
  have hconfig : ∀ k, c < k → k ≤ n →
      (settings (run (step false) s input k)).config = modeConfig true := by
    intro k hk hkn
    rw [hkept k hk hkn,given,hmode]
  have hcount := hans.trans (count_word hr hb (by omega) hcr hclear
    (fun k hk hkr => by rw [hconfig k hk (by omega)]; exact (modeConfig_bits true).1) haddr)
  rw [countedPulses_eq_windows (by omega) hqc.le hconfig hgate] at hcount
  rcases @process_reply lib _ _ (hlenRest get (by simp)) hget hroom hcount
    (session lib (before ++ clr::between)).1 with ⟨reply,hreply,hparse⟩
  exact ⟨c,r,reply,⟨hqc,hcr,hrn⟩,⟨hclear,hkept⟩,⟨hvalid,hready⟩,congrArg Prod.snd hreply,hparse⟩

/-- One trigger at edge 13 opens a window of the single edge 15. -/
theorem triggered_count_reply_measured : (∃ c r reply,
    (process silentLib (session silentLib [trgMode,clrCount]).1 getCount).2 =
      [.xilIn32 saxiPulseCountOffset,.tcpWrite reply,.tcpOutput] ∧
    parseSigned reply = some ((((Finset.Ioc c (r-3)).filter fun i => rises measured i = true ∧
      InWindow powerUp measured (delayGiven silentLib [trgMode]) (widthGiven silentLib [trgMode]) 9
        i).card : ℤ).bmod (2^32))) ∧
    triggersAt powerUp measured 13 = true := by
  obtain ⟨c,r,reply,-,-,-,hreply,hparse⟩ := triggered_count_reply silentLib [trgMode] [] clrCount
    getCount powerUp measured 0 9 21 ⟨measured,0,rfl⟩ (fun _ => rfl) (fun _ => rfl) (by decide)
    ((names_encode_iff _ _ (by simp)).mpr rfl) ((names_encode_iff _ _ (by simp)).mpr rfl) (by simp)
    (by decide) (by decide) measured_before (by decide) measured_after
  exact ⟨⟨c,r,reply,hreply,hparse⟩,by decide⟩

end FpgaTest.DaqSession
