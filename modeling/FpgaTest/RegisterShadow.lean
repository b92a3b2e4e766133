import FpgaTest.CommandDispatch

/-!
# The software shadow of the pulse counter registers

`start_application` clears the three writable registers of the pulse counter
and the command handlers write them afterwards. The config register is never
read back: `pulse_counter_config` is the only record of what it holds, and both
`set_trigger_mode` and `set_clear` modify that record bit by bit before they
write it out.

A conversion to `u32` out of range is undefined in C. Here it leaves a value
that the message carries along, so that a run over any messages has a result.
-/
namespace FpgaTest.RegisterShadow
open CString CommandDispatch

/-- A message with what its surroundings answer and what a conversion out of
range would leave. -/
structure Message where
  env : Env
  frame : List Byte
  unspecified : BitVec 32

namespace Message

def value (m : Message) : List Byte := valueText (contents m.frame)

def convert (m : Message) (q : ℚ) : BitVec 32 := (toU32 q).getD m.unspecified

end Message

/-- The command whose handler runs. -/
def commandOf (frame : List Byte) : Option Command :=
  ((decode frame).bind fun fields => select fields.cmd commands).join

def setVoltage (adcValue : BitVec 32) : List Effect :=
  [.gpioVoltWrite adcValue,.gpioSetWrite 1,.usleep 10,.gpioSetWrite 0]

/-- What the handler writes if its conversion is out of range. -/
def Message.unspecifiedWrite (m : Message) : Command → List Effect
  | .setVolt => setVoltage m.unspecified
  | .setTrgWidth => setTriggerWidth m.unspecified
  | .setTrgDelay => setTriggerDelay m.unspecified
  | _ => []

/-- One turn of the message loop. -/
def process (lib : FloatLib) (g : Globals) (m : Message) : Globals × List Effect :=
  (dispatch lib m.env g m.frame).getD (g,(commandOf m.frame).elim [] m.unspecifiedWrite)

/-- The part of `start_application` that initialises the pulse counter; the
variables it declares are not the ones the handlers use. -/
def startApplication : Globals × List Effect :=
  let triggerDelay := 0#32
  let triggerWidth := 0#32
  let clear := 0#32
  let triggerMode := 0#32
  let config := 0#32 ||| (clear <<< 0) ||| (triggerMode <<< 1)
  (⟨0,0⟩,
    [.xilOut32 saxiTriggerDelayOffset triggerDelay,
      .xilPrintf (bytesOf ("Set trigger delay: " ++ toString triggerDelay.toInt ++ "\n\r")),
      .xilOut32 saxiTriggerWidthOffset triggerWidth,
      .xilPrintf (bytesOf ("Set trigger width: " ++ toString triggerWidth.toInt ++ "\n\r")),
      .xilOut32 saxiPulseConfigOffset config,
      .xilPrintf (bytesOf ("Set config :0x" ++ config.toHex.toUpper ++ "\n\r"))])

/-- One turn with the calls so far. -/
def turn (lib : FloatLib) (s : Globals × List Effect) (m : Message) : Globals × List Effect :=
  ((process lib s.1 m).1,s.2 ++ (process lib s.1 m).2)

/-- The variables and all calls after the start and some messages. -/
def session (lib : FloatLib) (ms : List Message) : Globals × List Effect :=
  ms.foldl (turn lib) startApplication

/-- The values written to a register, in order. -/
def writes (offset : ℕ) (effects : List Effect) : List (BitVec 32) :=
  effects.filterMap fun
    | .xilOut32 o value => if o = offset then some value else none
    | _ => none

/-- The last message that runs a command. -/
def lastRunning (c : Command) (ms : List Message) : Option Message :=
  (ms.filter fun m => commandOf m.frame = some c).getLast?

theorem writes_append (offset : ℕ) (es fs : List Effect) :
    writes offset (es ++ fs) = writes offset es ++ writes offset fs := by
  simp [writes]

theorem session_concat (lib : FloatLib) (ms : List Message) (m : Message) :
    session lib (ms ++ [m]) = turn lib (session lib ms) m := by
  simp [session]

theorem lastRunning_concat (c : Command) (ms : List Message) (m : Message) :
    lastRunning c (ms ++ [m]) =
      if commandOf m.frame = some c then some m else lastRunning c ms := by
  by_cases h : commandOf m.frame = some c
  · simp [lastRunning,List.filter_append,h]
  · simp [lastRunning,List.filter_append,h]

theorem commandOf_eq_some {frame : List Byte} (h : frame.length = CommandServer.messageSize)
    (c : Command) : commandOf frame = some c ↔ Names c frame := by
  rw [← runs_iff h]
  rcases decode_fields h with ⟨fields,hdec,-,-,hz,-⟩
  simp only [commandOf,Runs,hdec,Option.bind_some,Option.some_inj,exists_eq_left',
    Option.join_eq_some_iff]

theorem commandOf_eq_none {frame : List Byte} (h : frame.length = CommandServer.messageSize) :
    commandOf frame = none ↔ ∀ c, ¬ Names c frame := by
  rw [Option.eq_none_iff_forall_ne_some]
  exact forall_congr' fun c => not_congr (commandOf_eq_some h c)

variable (lib : FloatLib) (g : Globals) (m : Message)

/-- The handler of a command, with the conversions of the message. -/
def outcome : Command → Globals × List Effect
  | .getCount =>
      (g,.xilIn32 saxiPulseCountOffset ::
        sendReply m.env (snprintf (bytesOf (toString m.env.pulseCount.toInt))))
  | .setVolt =>
      (g,setVoltage (m.convert ((lib.atof m.value + 5)*(1048575/10) + g.voltageOffset.toNat)))
  | .setTrgMode => setTriggerMode g ((atoi m.value).setWidth 8)
  | .setTrgWidth => (g,setTriggerWidth (m.convert (lib.atof m.value * 100)))
  | .setTrgDelay => (g,setTriggerDelay (m.convert (lib.atof m.value * 100)))
  | .setClrCount => setClear g
  | .setOffset => ({ g with voltageOffset := atoi m.value },[])
  | .getVolt =>
      (g,.readAi :: sendReply m.env (snprintf (lib.showFloat (inputVoltage m.env))))

theorem process_running (hlen : m.frame.length = CommandServer.messageSize) {c : Command}
    (hc : commandOf m.frame = some c) : process lib g m = outcome lib g m c := by
  have hd := dispatch_named lib m.env g hlen ((commandOf_eq_some hlen c).mp hc)
  rw [process,hd,hc]
  cases c with
  | setVolt =>
      simp only [handler,outcome,getAdc,Message.convert,Message.value,Option.elim_some]
      cases toU32 _ <;> rfl
  | setTrgWidth | setTrgDelay =>
      simp only [handler,outcome,Message.convert,Message.value,Option.elim_some]
      cases toU32 _ <;> rfl
  | _ => rfl

theorem process_error (hlen : m.frame.length = CommandServer.messageSize)
    (hc : commandOf m.frame = none) : ∃ cmd, process lib g m = (g,[commandError cmd]) := by
  rcases dispatch_unnamed lib m.env g hlen ((commandOf_eq_none hlen).mp hc) with ⟨cmd,hcmd⟩
  exact ⟨cmd,by rw [process,hcmd]; rfl⟩

theorem writes_sendReply (offset : ℕ) (env : Env) (reply : List Byte) :
    writes offset (sendReply env reply) = [] := by
  unfold sendReply
  split_ifs <;> rfl

/-- The register that a command writes. -/
def target : Command → Option ℕ
  | .setTrgMode | .setClrCount => some saxiPulseConfigOffset
  | .setTrgWidth => some saxiTriggerWidthOffset
  | .setTrgDelay => some saxiTriggerDelayOffset
  | _ => none

theorem eq_setTrgDelay_of_target {c : Command} (h : target c = some saxiTriggerDelayOffset) :
    c = .setTrgDelay := by
  cases c with
  | setTrgDelay => rfl
  | _ => cases h

theorem eq_setTrgWidth_of_target {c : Command} (h : target c = some saxiTriggerWidthOffset) :
    c = .setTrgWidth := by
  cases c with
  | setTrgWidth => rfl
  | _ => cases h

theorem writes_outcome_of_ne {offset : ℕ} {c : Command} (h : target c ≠ some offset) :
    writes offset (outcome lib g m c).2 = [] := by
  cases c with
  | getCount | getVolt => exact writes_sendReply offset m.env _
  | setVolt | setOffset => rfl
  | setTrgMode | setTrgWidth | setTrgDelay | setClrCount =>
      have hne := fun he => h (congrArg some he)
      simp only [outcome,setTriggerMode,setTriggerWidth,setTriggerDelay,setClear,writes,
        List.filterMap_cons,List.filterMap_nil]
      simp only [if_neg hne]

theorem writes_process_of_ne (hlen : m.frame.length = CommandServer.messageSize) {offset : ℕ}
    (h : ∀ c, commandOf m.frame = some c → target c ≠ some offset) :
    writes offset (process lib g m).2 = [] := by
  cases hc : commandOf m.frame with
  | none =>
      rcases process_error lib g m hlen hc with ⟨cmd,hcmd⟩
      rw [hcmd]
      rfl
  | some c =>
      rw [process_running lib g m hlen hc]
      exact writes_outcome_of_ne lib g m (h c hc)

theorem config_process_of_ne (hlen : m.frame.length = CommandServer.messageSize)
    (h : ∀ c, commandOf m.frame = some c → target c ≠ some saxiPulseConfigOffset) :
    (process lib g m).1.pulseCounterConfig = g.pulseCounterConfig := by
  cases hc : commandOf m.frame with
  | none =>
      rcases process_error lib g m hlen hc with ⟨cmd,hcmd⟩
      rw [hcmd]
  | some c =>
      rw [process_running lib g m hlen hc]
      cases c with
      | setTrgMode | setClrCount => exact absurd rfl (h _ hc)
      | _ => rfl

/-- The only two values that the config register rests at. -/
def modeConfig (mode : Bool) : BitVec 32 := if mode then 2 else 0

theorem modeConfig_bits (mode : Bool) :
    (modeConfig mode).getLsbD 0 = false ∧ (modeConfig mode).getLsbD 1 = mode ∧
      ∀ i, 2 ≤ i → (modeConfig mode).getLsbD i = false := by
  refine ⟨by cases mode <;> rfl,by cases mode <;> rfl,?_⟩
  intro i hi
  have htwo : (modeConfig mode).toNat < 2^2 := by cases mode <;> decide
  rw [← BitVec.testBit_toNat]
  exact Nat.testBit_lt_two_pow (htwo.trans_le (Nat.pow_le_pow_right (by decide) hi))

theorem modeConfig_setMode : ∀ mode b : Bool,
    (modeConfig mode &&& ~~~(1#32 <<< 1)) ||| ((BitVec.ofBool b).setWidth 32 <<< 1) =
      modeConfig b := by
  decide

theorem modeConfig_setClear : ∀ mode : Bool,
    (modeConfig mode &&& ~~~(1#32 <<< 0)) ||| ((1#32 &&& 1#32) <<< 0) = modeConfig mode ||| 1#32 ∧
    ((modeConfig mode ||| 1#32) &&& ~~~(1#32 <<< 0)) ||| ((0#32 &&& 1#32) <<< 0) =
      modeConfig mode := by
  decide

theorem setTriggerMode_config {mode : Bool} (hg : g.pulseCounterConfig = modeConfig mode)
    (value : BitVec 32) :
    setTriggerMode g (value.setWidth 8) =
      ({ g with pulseCounterConfig := modeConfig (value.getLsbD 0) },
        [.xilOut32 saxiPulseConfigOffset (modeConfig (value.getLsbD 0))]) := by
  have hbit : (value.setWidth 8).setWidth 32 &&& 1#32 =
      (BitVec.ofBool (value.getLsbD 0)).setWidth 32 := by
    rw [BitVec.and_one_eq_setWidth_ofBool_getLsbD]
    simp
  simp only [setTriggerMode,hg,hbit,modeConfig_setMode]

theorem setClear_config {mode : Bool} (hg : g.pulseCounterConfig = modeConfig mode) :
    setClear g = (g,[.xilOut32 saxiPulseConfigOffset (modeConfig mode ||| 1#32),
      .xilOut32 saxiPulseConfigOffset (modeConfig mode)]) := by
  simp only [setClear,hg,modeConfig_setClear]
  rw [← hg]

/-- The variables and the calls so far agree with the given settings. -/
structure Shadows (s : Globals × List Effect) (mode : Bool) (delay width : BitVec 32) : Prop where
  config : s.1.pulseCounterConfig = modeConfig mode
  written : (writes saxiPulseConfigOffset s.2).getLast? = some (modeConfig mode)
  delay : (writes saxiTriggerDelayOffset s.2).getLast? = some delay
  width : (writes saxiTriggerWidthOffset s.2).getLast? = some width

theorem shadows_startApplication : Shadows startApplication false 0 0 :=
  ⟨rfl,rfl,rfl,rfl⟩

/-- The settings after the messages: those of the last command of each kind. -/
def modeGiven (ms : List Message) : Bool :=
  (lastRunning .setTrgMode ms).elim false fun m => (atoi m.value).getLsbD 0

def delayGiven (lib : FloatLib) (ms : List Message) : BitVec 32 :=
  (lastRunning .setTrgDelay ms).elim 0 fun m => m.convert (lib.atof m.value * 100)

def widthGiven (lib : FloatLib) (ms : List Message) : BitVec 32 :=
  (lastRunning .setTrgWidth ms).elim 0 fun m => m.convert (lib.atof m.value * 100)

theorem elim_lastRunning_concat {α : Type} (c : Command) (ms : List Message) (m : Message) (d : α)
    (f : Message → α) :
    (lastRunning c (ms ++ [m])).elim d f =
      if commandOf m.frame = some c then f m else (lastRunning c ms).elim d f := by
  rw [lastRunning_concat]
  split_ifs <;> rfl

theorem getLast_writes_turn (s : Globals × List Effect) (offset : ℕ) :
    (writes offset (turn lib s m).2).getLast? =
      (writes offset (process lib s.1 m).2).getLast?.or (writes offset s.2).getLast? := by
  rw [turn,writes_append,List.getLast?_append]

variable {lib m}

/-- A register that only one command writes holds the value of its last one. -/
theorem register_turn {s : Globals × List Effect} {c : Command} {offset : ℕ} {old new : BitVec 32}
    (hlen : m.frame.length = CommandServer.messageSize)
    (honly : ∀ {d}, target d = some offset → d = c)
    (hnew : writes offset (outcome lib s.1 m c).2 = [new])
    (hold : (writes offset s.2).getLast? = some old) :
    (writes offset (turn lib s m).2).getLast? =
      some (if commandOf m.frame = some c then new else old) := by
  rw [getLast_writes_turn,hold]
  by_cases hc : commandOf m.frame = some c
  · rw [process_running lib s.1 m hlen hc,hnew,if_pos hc]
    rfl
  · rw [if_neg hc,writes_process_of_ne lib s.1 m hlen]
    · rfl
    · intro d hd ht
      rw [honly ht] at hd
      exact hc hd

/-- The config register and its record after one more message. -/
theorem config_turn {s : Globals × List Effect} {mode next : Bool}
    (hlen : m.frame.length = CommandServer.messageSize)
    (hnext : next = if commandOf m.frame = some .setTrgMode then (atoi m.value).getLsbD 0 else mode)
    (hg : s.1.pulseCounterConfig = modeConfig mode)
    (hw : (writes saxiPulseConfigOffset s.2).getLast? = some (modeConfig mode)) :
    (turn lib s m).1.pulseCounterConfig = modeConfig next ∧
      (writes saxiPulseConfigOffset (turn lib s m).2).getLast? = some (modeConfig next) := by
  rw [getLast_writes_turn,hw,turn,hnext]
  by_cases hm : commandOf m.frame = some .setTrgMode
  · rw [process_running lib s.1 m hlen hm,outcome,setTriggerMode_config s.1 hg,if_pos hm]
    exact ⟨rfl,rfl⟩
  · rw [if_neg hm]
    by_cases hc : commandOf m.frame = some .setClrCount
    · rw [process_running lib s.1 m hlen hc,outcome,setClear_config s.1 hg]
      exact ⟨hg,rfl⟩
    · have hne : ∀ c, commandOf m.frame = some c → target c ≠ some saxiPulseConfigOffset := by
        intro c hrun
        cases c with
        | setTrgMode => exact absurd hrun hm
        | setClrCount => exact absurd hrun hc
        | _ => decide
      rw [config_process_of_ne lib s.1 m hlen hne,writes_process_of_ne lib s.1 m hlen hne]
      exact ⟨hg,rfl⟩

/-- In a session the shadows hold the settings of the last commands. -/
theorem shadows_session (lib : FloatLib) (ms : List Message)
    (h : ∀ m ∈ ms, m.frame.length = CommandServer.messageSize) :
    Shadows (session lib ms) (modeGiven ms) (delayGiven lib ms) (widthGiven lib ms) := by
  induction ms using List.reverseRecOn with
  | nil => exact shadows_startApplication
  | append_singleton ms m ih =>
      have hs := ih fun x hx => h x (List.mem_append_left _ hx)
      have hlen := h m (List.mem_append_right _ (List.mem_singleton_self m))
      rw [session_concat]
      have hmode : modeGiven (ms ++ [m]) = if commandOf m.frame = some .setTrgMode
          then (atoi m.value).getLsbD 0 else modeGiven ms :=
        elim_lastRunning_concat .setTrgMode ms m false _
      constructor
      · exact (config_turn hlen hmode hs.config hs.written).1
      · exact (config_turn hlen hmode hs.config hs.written).2
      · rw [delayGiven,elim_lastRunning_concat]
        exact register_turn hlen eq_setTrgDelay_of_target rfl hs.delay
      · rw [widthGiven,elim_lastRunning_concat]
        exact register_turn hlen eq_setTrgWidth_of_target rfl hs.width

/-- After the start and any messages, the config register was last written with
`pulse_counter_config`, which holds the trigger mode last given and nothing
else; a clear writes it with bit 0 set and then cleared, and the delay and width
registers hold what their own commands wrote last. -/
theorem registers_follow_commands (lib : FloatLib) (ms : List Message)
    (h : ∀ m ∈ ms, m.frame.length = CommandServer.messageSize) :
    ((writes saxiPulseConfigOffset (session lib ms).2).getLast? =
        some (session lib ms).1.pulseCounterConfig ∧
      (session lib ms).1.pulseCounterConfig.getLsbD 0 = false ∧
      (session lib ms).1.pulseCounterConfig.getLsbD 1 = modeGiven ms ∧
      ∀ i, 2 ≤ i → (session lib ms).1.pulseCounterConfig.getLsbD i = false) ∧
    (∀ before m after, ms = before ++ m::after → Names .setClrCount m.frame →
      ∃ set cleared, (process lib (session lib before).1 m).2 =
          [.xilOut32 saxiPulseConfigOffset set,.xilOut32 saxiPulseConfigOffset cleared] ∧
        set.getLsbD 0 = true ∧ cleared.getLsbD 0 = false ∧
        set.getLsbD 1 = (session lib before).1.pulseCounterConfig.getLsbD 1 ∧
        cleared.getLsbD 1 = (session lib before).1.pulseCounterConfig.getLsbD 1) ∧
    (writes saxiTriggerDelayOffset (session lib ms).2).getLast? = some (delayGiven lib ms) ∧
    (writes saxiTriggerWidthOffset (session lib ms).2).getLast? = some (widthGiven lib ms) ∧
    ∀ before m after, ms = before ++ m::after →
      (¬ Names .setTrgDelay m.frame →
        writes saxiTriggerDelayOffset (process lib (session lib before).1 m).2 = []) ∧
      (¬ Names .setTrgWidth m.frame →
        writes saxiTriggerWidthOffset (process lib (session lib before).1 m).2 = []) := by
  have hs := shadows_session lib ms h
  have hpart : ∀ {before m after}, ms = before ++ m::after →
      m.frame.length = CommandServer.messageSize ∧
        ∀ x ∈ before, x.frame.length = CommandServer.messageSize := by
    intro before m after hms
    subst hms
    exact ⟨h m (by simp),fun x hx => h x (by simp [hx])⟩
  refine ⟨⟨?_,?_,?_,?_⟩,?_,hs.delay,hs.width,?_⟩
  · rw [hs.written,hs.config]
  · rw [hs.config]
    exact (modeConfig_bits (modeGiven ms)).1
  · rw [hs.config]
    exact (modeConfig_bits (modeGiven ms)).2.1
  · intro i hi
    rw [hs.config]
    exact (modeConfig_bits (modeGiven ms)).2.2 i hi
  · intro before m after hms hc
    rcases hpart hms with ⟨hlen,hbefore⟩
    have hb := shadows_session lib before hbefore
    rw [process_running lib _ m hlen ((commandOf_eq_some hlen _).mpr hc),outcome,
      setClear_config _ hb.config,hb.config]
    refine ⟨_,_,rfl,?_⟩
    generalize modeGiven before = mode
    revert mode
    decide
  · intro before m after hms
    rcases hpart hms with ⟨hlen,-⟩
    constructor
    · intro hno
      apply writes_process_of_ne lib _ m hlen
      intro c hc ht
      rw [eq_setTrgDelay_of_target ht,commandOf_eq_some hlen] at hc
      exact hno hc
    · intro hno
      apply writes_process_of_ne lib _ m hlen
      intro c hc ht
      rw [eq_setTrgWidth_of_target ht,commandOf_eq_some hlen] at hc
      exact hno hc

/-- A mode, a clear and a width after the start. -/
theorem registers_follow_commands_three :
    let ms : List Message := [⟨⟨0,none,0⟩,encode .setTrgMode (bytesOf "1"),0⟩,
      ⟨⟨0,none,0⟩,encode .setClrCount [],0⟩,⟨⟨0,none,0⟩,encode .setTrgWidth (bytesOf "0"),7⟩]
    (writes saxiPulseConfigOffset (session silentLib ms).2).getLast? =
      some (session silentLib ms).1.pulseCounterConfig ∧ modeGiven ms = true := by
  have h := registers_follow_commands silentLib [⟨⟨0,none,0⟩,encode .setTrgMode (bytesOf "1"),0⟩,
    ⟨⟨0,none,0⟩,encode .setClrCount [],0⟩,⟨⟨0,none,0⟩,encode .setTrgWidth (bytesOf "0"),7⟩]
    (by decide)
  exact ⟨h.1.1,by decide⟩

end FpgaTest.RegisterShadow
