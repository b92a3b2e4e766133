import FpgaTest.CString
import FpgaTest.CommandServer

/-!
# Splitting and dispatching one message

The body of the message loop in `recv_callback`: the 24 bytes are terminated,
split at the first space into the arrays `cmd[32]` and `val[32]`, and `cmd` is
compared with the eight command names in turn. A handler returns the two
variables that outlive it, `pulse_counter_config` and `voltage_offset`, and the
calls it makes, in order.

Copies and comparisons are the checked ones of `CString`, so a message that
would write outside one of the arrays has no result. The floating-point
conversions of the C library are parameters over exact rationals; a conversion
to `u32` of a value outside the range has no result, as in C.
-/
namespace FpgaTest.CommandDispatch
open CString

inductive Command where
  | getCount | setVolt | setTrgMode | setTrgWidth | setTrgDelay | setClrCount | setOffset | getVolt
  deriving DecidableEq, Repr

def Command.name : Command → String
  | .getCount => "CLS:GetCount"
  | .setVolt => "CLS:SetVolt"
  | .setTrgMode => "CLS:SetTrgMode"
  | .setTrgWidth => "CLS:SetTrgWidth"
  | .setTrgDelay => "CLS:SetTrgDelay"
  | .setClrCount => "CLS:SetClrCount"
  | .setOffset => "CLS:SetOffset"
  | .getVolt => "CLS:GetVolt"

/-- The order of the comparisons. -/
def commands : List Command :=
  [.getCount,.setVolt,.setTrgMode,.setTrgWidth,.setTrgDelay,.setClrCount,.setOffset,.getVolt]

structure Globals where
  pulseCounterConfig : BitVec 32
  voltageOffset : BitVec 32
  deriving DecidableEq, Repr

/-- What the surroundings answer during one dispatch: the count register, the
result of `read_ai` and the room in the send buffer. -/
structure Env where
  pulseCount : BitVec 32
  readAi : Option (BitVec 16)
  sndbuf : ℕ

/-- `atof` and the `%f` conversion. -/
structure FloatLib where
  atof : List Byte → ℚ
  showFloat : ℚ → List Byte

inductive Effect where
  | xilIn32 (offset : ℕ)
  | xilOut32 (offset : ℕ) (value : BitVec 32)
  | gpioVoltWrite (value : BitVec 32)
  | gpioSetWrite (value : BitVec 32)
  | usleep (us : ℕ)
  | readAi
  | tcpWrite (bytes : List Byte)
  | tcpOutput
  | xilPrintf (text : List Byte)
  deriving DecidableEq, Repr

/-- A device register or GPIO is written, or bytes are sent. -/
def Effect.Acts : Effect → Prop
  | .xilOut32 _ _ | .gpioVoltWrite _ | .gpioSetWrite _ | .tcpWrite _ | .tcpOutput => True
  | .xilIn32 _ | .usleep _ | .readAi | .xilPrintf _ => False

def saxiPulseCountOffset : ℕ := 0
def saxiTriggerDelayOffset : ℕ := 4
def saxiTriggerWidthOffset : ℕ := 8
def saxiPulseConfigOffset : ℕ := 12

def isDigit (b : Byte) : Bool := decide (0x30 ≤ b.toNat ∧ b.toNat ≤ 0x39)

def isSpace (b : Byte) : Bool := decide (b.toNat = 0x20 ∨ 9 ≤ b.toNat ∧ b.toNat ≤ 13)

def digitsValue (digits : List Byte) : ℕ :=
  digits.foldl (fun v b => 10*v + (b.toNat - 0x30)) 0

/-- The integer in front of a string, clamped to the range of `int`. -/
def atoi (text : List Byte) : BitVec 32 :=
  let body := text.dropWhile isSpace
  let value : ℤ := match body with
    | 0x2d#8::rest => -(digitsValue (rest.takeWhile isDigit) : ℤ)
    | 0x2b#8::rest => digitsValue (rest.takeWhile isDigit)
    | rest => digitsValue (rest.takeWhile isDigit)
  BitVec.ofInt 32 (max (-2^31) (min value (2^31 - 1)))

/-- `(u32)q`: truncation, without a result outside the range. -/
def toU32 (q : ℚ) : Option (BitVec 32) :=
  let t := if 0 ≤ q then q.floor else q.ceil
  if 0 ≤ t ∧ t < 2^32 then some (BitVec.ofInt 32 t) else none

def getAdc (voltage : ℚ) (voltageOffset : BitVec 32) : Option (BitVec 32) :=
  toU32 ((voltage + 5)*(1048575/10) + voltageOffset.toNat)

def setTriggerMode (g : Globals) (value : BitVec 8) : Globals × List Effect :=
  let config := (g.pulseCounterConfig &&& ~~~(1#32 <<< 1)) ||| ((value.setWidth 32 &&& 1#32) <<< 1)
  ({ g with pulseCounterConfig := config },[.xilOut32 saxiPulseConfigOffset config])

def setTriggerWidth (value : BitVec 32) : List Effect := [.xilOut32 saxiTriggerWidthOffset value]

def setTriggerDelay (value : BitVec 32) : List Effect := [.xilOut32 saxiTriggerDelayOffset value]

def setClear (g : Globals) : Globals × List Effect :=
  let set := (g.pulseCounterConfig &&& ~~~(1#32 <<< 0)) ||| ((1#32 &&& 1#32) <<< 0)
  let cleared := (set &&& ~~~(1#32 <<< 0)) ||| ((0#32 &&& 1#32) <<< 0)
  ({ g with pulseCounterConfig := cleared },
    [.xilOut32 saxiPulseConfigOffset set,.xilOut32 saxiPulseConfigOffset cleared])

/-- `snprintf` into a reply array of 32 bytes. -/
def snprintf (text : List Byte) : List Byte := text.take 31

def sendReply (env : Env) (reply : List Byte) : List Effect :=
  if reply.length ≤ env.sndbuf then [.tcpWrite reply,.tcpOutput]
  else [.xilPrintf (bytesOf "no space in tcp_sndbuf\r\n")]

/-- The reading of the analog input, -999 when it failed. -/
def inputVoltage (env : Env) : ℚ :=
  match env.readAi with
  | some adcVal => adcVal.toNat*(24576/1000)/65535 - 12288/1000
  | none => -999

/-- The branch of the dispatch for one command. -/
def handler (lib : FloatLib) (env : Env) (g : Globals) (val : List Byte) :
    Command → Option (Globals × List Effect)
  | .getCount =>
      some (g,.xilIn32 saxiPulseCountOffset ::
        sendReply env (snprintf (bytesOf (toString env.pulseCount.toInt))))
  | .setVolt =>
      (getAdc (lib.atof val) g.voltageOffset).map fun adcValue =>
        (g,[.gpioVoltWrite adcValue,.gpioSetWrite 1,.usleep 10,.gpioSetWrite 0])
  | .setTrgMode => some (setTriggerMode g ((atoi val).setWidth 8))
  | .setTrgWidth => (toU32 (lib.atof val * 100)).map fun width => (g,setTriggerWidth width)
  | .setTrgDelay => (toU32 (lib.atof val * 100)).map fun delay => (g,setTriggerDelay delay)
  | .setClrCount => some (setClear g)
  | .setOffset => some ({ g with voltageOffset := atoi val },[])
  | .getVolt =>
      some (g,.readAi :: sendReply env (snprintf (lib.showFloat (inputVoltage env))))

/-- The arrays `cmd[32]` and `val[32]`. -/
structure Fields where
  cmd : List Byte
  val : List Byte
  deriving DecidableEq, Repr

/-- sizeof(cmd) and sizeof(val) -/
def fieldSize : ℕ := 32

def space : Byte := 0x20

/-- The split of a terminated message. -/
def splitMessage (msg : List Byte) : Option Fields :=
  let zeroed := List.replicate fieldSize 0#8
  (strchr space msg).bind fun
    | some cmdLen =>
        (strncpy zeroed msg cmdLen).bind fun copied =>
          (store copied cmdLen 0#8).bind fun cmd =>
            (strncpy zeroed (msg.drop (cmdLen+1)) (fieldSize-1)).map fun val => ⟨cmd,val⟩
    | none => (strncpy zeroed msg (fieldSize-1)).map fun cmd => ⟨cmd,zeroed⟩

/-- `memcpy(msg, recv_buffer, MESSAGE_SIZE); msg[MESSAGE_SIZE] = 0` and the split. -/
def decode (frame : List Byte) : Option Fields := splitMessage (frame ++ [0#8])

/-- The chain of comparisons; `some none` when none of them succeeds. -/
def select (cmd : List Byte) : List Command → Option (Option Command)
  | [] => some none
  | c::rest =>
      (strcmp cmd (literal c.name)).bind fun d =>
        if d = 0 then some (some c) else select cmd rest

def commandError (cmd : List Byte) : Effect :=
  .xilPrintf (bytesOf "command error: " ++ contents cmd ++ bytesOf "\r\n")

def dispatch (lib : FloatLib) (env : Env) (g : Globals) (frame : List Byte) :
    Option (Globals × List Effect) :=
  (decode frame).bind fun fields =>
    (select fields.cmd commands).bind fun
      | some c => handler lib env g (contents fields.val) c
      | none => some (g,[commandError fields.cmd])

/-- The array of `fieldSize` bytes that holds `text`. -/
def field (text : List Byte) : List Byte :=
  text ++ List.replicate (fieldSize - text.length) 0#8

/-- What stands before the first space. -/
def commandText (text : List Byte) : List Byte := text.takeWhile (· ≠ space)

/-- What stands behind the first space, nothing if there is none. -/
def valueText (text : List Byte) : List Byte := (text.dropWhile (· ≠ space)).drop 1

/-- In range the conversion is the floor, also of the negative values above -1. -/
theorem toU32_of_range {q : ℚ} (hlo : -1 < q) (hhi : q < 2^32) :
    toU32 q = some (BitVec.ofNat 32 ⌊q⌋₊) := by
  have htrunc : (if 0 ≤ q then q.floor else q.ceil) = (⌊q⌋₊ : ℤ) := by
    split_ifs with h
    · exact (Int.natCast_floor_eq_floor h).symm
    · have hneg : q < 0 := lt_of_not_ge h
      have hupper : q.ceil ≤ 0 := Rat.ceil_le_iff.mpr (by exact_mod_cast hneg.le)
      have hlower : -1 < q.ceil := Rat.lt_ceil_iff.mpr (by exact_mod_cast hlo)
      rw [Nat.floor_of_nonpos hneg.le]
      simp only [Nat.cast_zero]
      omega
  have hlt : (⌊q⌋₊ : ℤ) < 2^32 := by
    have : ⌊q⌋₊ < 2^32 := (Nat.floor_lt' (by decide)).mpr (by exact_mod_cast hhi)
    exact_mod_cast this
  simp only [toU32,htrunc]
  rw [if_pos ⟨Int.natCast_nonneg _,hlt⟩,BitVec.ofInt_natCast]

theorem toU32_of_large {q : ℚ} (h : 2^32 ≤ q) : toU32 q = none := by
  have hq : (0 : ℚ) ≤ q := le_trans (by norm_num) h
  have hfloor : (2^32 : ℤ) ≤ q.floor := Rat.le_floor_iff.mpr (by exact_mod_cast h)
  simp only [toU32,if_pos hq]
  exact if_neg fun hlt => absurd hlt.2 (not_lt.mpr hfloor)

theorem toU32_of_negative {q : ℚ} (h : q ≤ -1) : toU32 q = none := by
  have hq : ¬ (0 : ℚ) ≤ q := fun h0 => absurd (h0.trans h) (by norm_num)
  have hceil : q.ceil ≤ -1 := Rat.ceil_le_iff.mpr (by exact_mod_cast h)
  simp only [toU32,if_neg hq]
  exact if_neg fun hge => absurd (hge.1.trans hceil) (by decide)

theorem toU32_eq_some {q : ℚ} {w : BitVec 32} (h : toU32 q = some w) :
    -1 < q ∧ q < 2^32 ∧ w.toNat = ⌊q⌋₊ := by
  by_cases hlo : -1 < q
  · by_cases hhi : q < 2^32
    · refine ⟨hlo,hhi,?_⟩
      have hlt : ⌊q⌋₊ < 2^32 := (Nat.floor_lt' (by decide)).mpr (by exact_mod_cast hhi)
      rw [toU32_of_range hlo hhi,Option.some_inj] at h
      rw [← h,BitVec.toNat_ofNat,Nat.mod_eq_of_lt hlt]
    · rw [toU32_of_large (not_lt.mp hhi)] at h
      contradiction
  · rw [toU32_of_negative (not_lt.mp hlo)] at h
    contradiction

theorem length_field {text : List Byte} (h : text.length < fieldSize) :
    (field text).length = fieldSize := by
  simp only [field,List.length_append,List.length_replicate]
  omega

theorem field_eq {text : List Byte} (h : text.length < fieldSize) :
    field text = text ++ 0#8 :: List.replicate (fieldSize - text.length - 1) 0#8 := by
  obtain ⟨k,hk⟩ : ∃ k, fieldSize - text.length = k+1 := ⟨fieldSize - text.length - 1,by omega⟩
  rw [field,hk,List.replicate_succ,Nat.add_sub_cancel]

theorem zero_mem_field {text : List Byte} (h : text.length < fieldSize) : 0#8 ∈ field text := by
  rw [field_eq h]
  simp

theorem contents_field {text : List Byte} (hz : 0#8 ∉ text) (h : text.length < fieldSize) :
    contents (field text) = text := by
  rw [field_eq h,contents_append_zero hz]

theorem strncpy_zeroed {text src : List Byte} {n : ℕ} (pad : ℕ) (hn : n ≤ fieldSize)
    (hcopy : strncpyBytes src n = some (text ++ List.replicate pad 0#8))
    (hlen : text.length + pad = n) :
    strncpy (List.replicate fieldSize 0#8) src n = some (field text) := by
  have hfill : pad + (fieldSize - n) = fieldSize - text.length := by omega
  rw [strncpy,if_pos (by simpa using hn),hcopy]
  simp only [Option.map_some,List.drop_replicate,List.append_assoc,List.replicate_append_replicate]
  rw [hfill,field]

theorem set_field (text : List Byte) (h : text.length < fieldSize) :
    store (field text) text.length 0#8 = some (field text) := by
  rw [store,if_pos (by rw [length_field h]; exact h),field_eq h]
  simp

theorem splitMessage_space {pre post rest : List Byte} (hs : space ∉ pre) (hz : 0#8 ∉ pre)
    (hz' : 0#8 ∉ post) (hlen : pre.length + 1 + post.length < fieldSize) :
    splitMessage (pre ++ space :: (post ++ 0#8 :: rest)) = some ⟨field pre,field post⟩ := by
  have hchr := strchr_found (post ++ 0#8 :: rest) hs hz
  have hcmd : strncpy (List.replicate fieldSize 0#8) (pre ++ space :: (post ++ 0#8 :: rest))
      pre.length = some (field pre) := by
    apply strncpy_zeroed 0 (by omega) _ (by omega)
    simpa using strncpyBytes_take (space :: (post ++ 0#8 :: rest)) hz le_rfl
  have hval : strncpy (List.replicate fieldSize 0#8) (post ++ 0#8 :: rest) (fieldSize-1) =
      some (field post) := by
    exact strncpy_zeroed _ (by omega) (strncpyBytes_pad hz' (by omega)) (by omega)
  have hdrop : (pre ++ space :: (post ++ 0#8 :: rest)).drop (pre.length+1) =
      post ++ 0#8 :: rest := by
    simp [List.drop_append]
  simp [splitMessage,hchr,hcmd,set_field pre (by omega),hdrop,hval]

theorem splitMessage_noSpace {text rest : List Byte} (hs : space ∉ text) (hz : 0#8 ∉ text)
    (hlen : text.length < fieldSize) :
    splitMessage (text ++ 0#8 :: rest) = some ⟨field text,field []⟩ := by
  have hchr := strchr_absent rest hs (by decide) hz
  have hcmd : strncpy (List.replicate fieldSize 0#8) (text ++ 0#8 :: rest) (fieldSize-1) =
      some (field text) :=
    strncpy_zeroed _ (by omega) (strncpyBytes_pad hz (by omega)) (by omega)
  simp [splitMessage,hchr,hcmd,field]

theorem ne_space_of_notMem {text : List Byte} (hs : space ∉ text) :
    ∀ b ∈ text, decide (b ≠ space) = true := by
  intro b hb
  have hne : b ≠ space := fun he => hs (he ▸ hb)
  simpa using hne

theorem commandText_append {pre : List Byte} (hs : space ∉ pre) (post : List Byte) :
    commandText (pre ++ space :: post) = pre := by
  rw [commandText,List.takeWhile_append_of_pos (ne_space_of_notMem hs)]
  simp

theorem valueText_append {pre : List Byte} (hs : space ∉ pre) (post : List Byte) :
    valueText (pre ++ space :: post) = post := by
  rw [valueText,List.dropWhile_append_of_pos (ne_space_of_notMem hs)]
  simp

theorem commandText_noSpace {text : List Byte} (hs : space ∉ text) : commandText text = text :=
  List.takeWhile_eq_self_iff.mpr (ne_space_of_notMem hs)

theorem valueText_noSpace {text : List Byte} (hs : space ∉ text) : valueText text = [] := by
  rw [valueText,List.dropWhile_eq_nil_iff.mpr (ne_space_of_notMem hs)]
  rfl

/-- Every message of 24 bytes is split without leaving an array, at the first
space of the text before its first NUL. -/
theorem decode_eq {frame : List Byte} (h : frame.length = CommandServer.messageSize) :
    decode frame =
      some ⟨field (commandText (contents frame)),field (valueText (contents frame))⟩ := by
  have hmem : 0#8 ∈ frame ++ [0#8] := by simp
  have hlen := length_contents_lt hmem
  rcases eq_contents_append hmem with ⟨rest,hrest⟩
  have hz := zero_notMem_contents frame
  simp only [List.length_append,h,List.length_singleton,CommandServer.messageSize,
    contents_append_terminator] at hlen
  rw [contents_append_terminator] at hrest
  rw [decode,hrest]
  by_cases hs : space ∈ contents frame
  · rcases List.eq_append_cons_of_mem hs with ⟨pre,post,htext,hpre⟩
    rw [htext] at hz hlen ⊢
    simp only [List.mem_append,List.mem_cons,not_or] at hz
    simp only [List.length_append,List.length_cons] at hlen
    rw [commandText_append hpre,valueText_append hpre,List.append_assoc,List.cons_append]
    exact splitMessage_space hpre hz.1 hz.2.2 (by simp only [fieldSize]; omega)
  · rw [commandText_noSpace hs,valueText_noSpace hs]
    exact splitMessage_noSpace hs hz (by simp only [fieldSize]; omega)

theorem length_commandText_le (text : List Byte) : (commandText text).length ≤ text.length :=
  (List.takeWhile_sublist _).length_le

theorem length_valueText_le (text : List Byte) : (valueText text).length ≤ text.length := by
  rw [valueText,List.length_drop]
  have := (List.dropWhile_sublist (p := fun b => decide (b ≠ space)) (l := text)).length_le
  omega

/-- The arrays after the split: their strings are the two parts of the text. -/
theorem decode_fields {frame : List Byte} (h : frame.length = CommandServer.messageSize) :
    ∃ fields, decode frame = some fields ∧ fields.cmd.length = fieldSize ∧
      fields.val.length = fieldSize ∧ 0#8 ∈ fields.cmd ∧ 0#8 ∈ fields.val ∧
      contents fields.cmd = commandText (contents frame) ∧
      contents fields.val = valueText (contents frame) := by
  have hle : (contents frame).length ≤ 24 := by
    rw [← CommandServer.messageSize.eq_def,← h]
    exact (List.takeWhile_sublist _).length_le
  have hcmd : (commandText (contents frame)).length < fieldSize := by
    have := length_commandText_le (contents frame)
    simp only [fieldSize]
    omega
  have hval : (valueText (contents frame)).length < fieldSize := by
    have := length_valueText_le (contents frame)
    simp only [fieldSize]
    omega
  have hz := zero_notMem_contents frame
  refine ⟨_,decode_eq h,length_field hcmd,length_field hval,zero_mem_field hcmd,
    zero_mem_field hval,contents_field ?_ hcmd,contents_field ?_ hval⟩
  · exact fun hm => hz ((List.takeWhile_sublist _).subset hm)
  · exact fun hm => hz ((List.dropWhile_sublist _).subset (List.mem_of_mem_drop hm))

theorem zero_notMem_name (c : Command) : 0#8 ∉ bytesOf c.name := by
  cases c <;> decide

theorem space_notMem_name (c : Command) : space ∉ bytesOf c.name := by
  cases c <;> decide

theorem bytesOf_name_injective {c d : Command} (h : bytesOf c.name = bytesOf d.name) : c = d := by
  revert h
  cases c <;> cases d <;> decide

theorem select_eq {cmd : List Byte} (h : 0#8 ∈ cmd) (cs : List Command) :
    select cmd cs = some (cs.find? fun c => contents cmd = bytesOf c.name) := by
  induction cs with
  | nil => rfl
  | cons c cs ih =>
      have hlit : 0#8 ∈ literal c.name := by simp [literal]
      rcases strcmp_eq_zero_iff h hlit with ⟨d,hd,hiff⟩
      rw [literal,contents_append_zero (zero_notMem_name c)] at hiff
      rw [select,hd]
      by_cases hc : contents cmd = bytesOf c.name
      · simp [hiff.mpr hc,hc]
      · have hd0 : d ≠ 0 := fun he => hc (hiff.mp he)
        simp [hd0,hc,ih]

theorem select_commands_iff {cmd : List Byte} (h : 0#8 ∈ cmd) (c : Command) :
    select cmd commands = some (some c) ↔ contents cmd = bytesOf c.name := by
  have hall : c ∈ commands := by cases c <;> decide
  rw [select_eq h,Option.some_inj]
  constructor
  · intro hf
    simpa using List.find?_some hf
  · intro hc
    cases hf : commands.find? fun c => decide (contents cmd = bytesOf c.name) with
    | none =>
        have hne := List.find?_eq_none.mp hf c hall
        simp [hc] at hne
    | some d =>
        have hd : contents cmd = bytesOf d.name := by simpa using List.find?_some hf
        rw [bytesOf_name_injective (hc.symm.trans hd)]

/-- The handler of `c` runs on this message. -/
def Runs (c : Command) (frame : List Byte) : Prop :=
  ∃ fields, decode frame = some fields ∧ select fields.cmd commands = some (some c)

/-- The text before the first NUL is the name, or the name and a space go first. -/
def Names (c : Command) (frame : List Byte) : Prop :=
  contents frame = bytesOf c.name ∨ bytesOf c.name ++ [space] <+: contents frame

theorem names_iff (c : Command) (frame : List Byte) :
    Names c frame ↔ commandText (contents frame) = bytesOf c.name := by
  constructor
  · intro h
    rcases h with h | h
    · rw [h]
      exact commandText_noSpace (space_notMem_name c)
    · rcases h with ⟨post,hpost⟩
      rw [← hpost,List.append_assoc,List.singleton_append]
      exact commandText_append (space_notMem_name c) post
  · intro h
    by_cases hs : space ∈ contents frame
    · rcases List.eq_append_cons_of_mem hs with ⟨pre,post,htext,hpre⟩
      rw [htext,commandText_append hpre] at h
      right
      rw [htext,h]
      exact ⟨post,by simp⟩
    · left
      rw [← h,commandText_noSpace hs]

theorem runs_iff {frame : List Byte} (h : frame.length = CommandServer.messageSize)
    (c : Command) : Runs c frame ↔ Names c frame := by
  rcases decode_fields h with ⟨fields,hdec,-,-,hz,-,hcmd,-⟩
  rw [names_iff,← hcmd,← select_commands_iff hz]
  constructor
  · intro hr
    rcases hr with ⟨fields',hdec',hsel⟩
    rw [hdec] at hdec'
    cases hdec'
    exact hsel
  · intro hsel
    exact ⟨fields,hdec,hsel⟩

/-- The NUL-padded message `name value`. -/
def encode (c : Command) (v : List Byte) : List Byte :=
  let text := bytesOf c.name ++ space :: v
  text ++ List.replicate (CommandServer.messageSize - text.length) 0#8

theorem length_encode {c : Command} {v : List Byte}
    (h : (bytesOf c.name).length + 1 + v.length ≤ CommandServer.messageSize) :
    (encode c v).length = CommandServer.messageSize := by
  simp only [encode,List.length_append,List.length_cons,List.length_replicate]
  omega

theorem contents_encode (c : Command) {v : List Byte} (h : 0#8 ∉ v) :
    contents (encode c v) = bytesOf c.name ++ space :: v := by
  apply contents_append_replicate
  simp only [List.mem_append,List.mem_cons,not_or]
  exact ⟨zero_notMem_name c,by decide,h⟩

theorem names_encode_iff (c d : Command) {v : List Byte} (h : 0#8 ∉ v) :
    Names d (encode c v) ↔ d = c := by
  rw [names_iff,contents_encode c h,commandText_append (space_notMem_name c)]
  constructor
  · intro he
    exact (bytesOf_name_injective he).symm
  · intro he
    rw [he]

variable (lib : FloatLib) (env : Env) (g : Globals)

theorem dispatch_named {frame : List Byte} (h : frame.length = CommandServer.messageSize)
    {c : Command} (hc : Names c frame) :
    dispatch lib env g frame = handler lib env g (valueText (contents frame)) c := by
  rcases decode_fields h with ⟨fields,hdec,-,-,hz,-,hcmd,hval⟩
  have hsel : select fields.cmd commands = some (some c) := by
    rw [select_commands_iff hz,hcmd,← names_iff]
    exact hc
  simp [dispatch,hdec,hsel,hval]

theorem dispatch_unnamed {frame : List Byte} (h : frame.length = CommandServer.messageSize)
    (hno : ∀ c, ¬ Names c frame) :
    ∃ cmd, dispatch lib env g frame = some (g,[commandError cmd]) := by
  rcases decode_fields h with ⟨fields,hdec,-,-,hz,-,hcmd,-⟩
  have hsel : select fields.cmd commands = some none := by
    rw [select_eq hz,Option.some_inj,List.find?_eq_none]
    intro c _ hc
    apply hno c
    rw [names_iff,← hcmd]
    simpa using hc
  exact ⟨fields.cmd,by simp [dispatch,hdec,hsel]⟩

/-- The server dispatches messages of 24 bytes only. -/
theorem length_dispatched {s t : CommandServer.Server} {tpcb : CommandServer.Pcb}
    {p : Option CommandServer.Pbuf} {calls : List CommandServer.Call}
    (hs : s.recvLen ≤ CommandServer.bufferSize)
    (h : CommandServer.recvCallback s tpcb p = some (t,calls)) :
    ∀ msg ∈ CommandServer.dispatched calls, msg.length = CommandServer.messageSize := by
  intro msg hmsg
  cases p with
  | none =>
      cases h
      simp [CommandServer.dispatched] at hmsg
  | some p =>
      by_cases hp : p.len ≤ CommandServer.bufferSize
      · rcases CommandServer.recvCallback_data tpcb hs hp with ⟨u,hu,-⟩
        cases hu.symm.trans h
        rw [CommandServer.dispatched_data] at hmsg
        exact BlockFraming.length_of_mem_blocks hmsg
      · rw [CommandServer.recvCallback_overrun tpcb (Nat.lt_of_not_le hp)] at h
        contradiction

/-- Decoding undoes encoding and accepts nothing else, within the two arrays. -/
theorem command_decoding :
    (∀ c v, 0#8 ∉ v → (bytesOf c.name).length + 1 + v.length ≤ CommandServer.messageSize →
      (encode c v).length = CommandServer.messageSize ∧
      (∀ d, Runs d (encode c v) ↔ d = c) ∧
      (∃ fields, decode (encode c v) = some fields ∧ contents fields.val = v) ∧
      dispatch lib env g (encode c v) = handler lib env g v c) ∧
    ∀ frame : List Byte, frame.length = CommandServer.messageSize →
      (∀ c, Runs c frame ↔ Names c frame) ∧
      (∀ c, Runs c frame → ∃ fields, decode frame = some fields ∧
        dispatch lib env g frame = handler lib env g (contents fields.val) c) ∧
      ((∀ c, ¬ Names c frame) → ∃ effects, dispatch lib env g frame = some (g,effects) ∧
        ∀ e ∈ effects, ¬ e.Acts) ∧
      ∃ fields, decode frame = some fields ∧ fields.cmd.length = fieldSize ∧
        fields.val.length = fieldSize ∧ 0#8 ∈ fields.cmd ∧ 0#8 ∈ fields.val := by
  constructor
  · intro c v hz hlen
    have hframe := length_encode hlen
    have hvalue : valueText (contents (encode c v)) = v := by
      rw [contents_encode c hz,valueText_append (space_notMem_name c)]
    refine ⟨hframe,?_,?_,?_⟩
    · intro d
      rw [runs_iff hframe,names_encode_iff c d hz]
    · rcases decode_fields hframe with ⟨fields,hdec,-,-,-,-,-,hval⟩
      exact ⟨fields,hdec,hval.trans hvalue⟩
    · have hc : Names c (encode c v) := (names_encode_iff c c hz).mpr rfl
      rw [dispatch_named lib env g hframe hc,hvalue]
  · intro frame h
    rcases decode_fields h with ⟨fields,hdec,hcmdLen,hvalLen,hcmdZ,hvalZ,-,hval⟩
    refine ⟨runs_iff h,?_,?_,⟨fields,hdec,hcmdLen,hvalLen,hcmdZ,hvalZ⟩⟩
    · intro c hc
      refine ⟨fields,hdec,?_⟩
      rw [hval]
      exact dispatch_named lib env g h ((runs_iff h c).mp hc)
    · intro hno
      rcases dispatch_unnamed lib env g h hno with ⟨cmd,hcmd⟩
      refine ⟨_,hcmd,?_⟩
      intro e he
      rw [List.mem_singleton.mp he]
      exact id

/-- A library that reads no number and a full send buffer. -/
def silentLib : FloatLib := ⟨fun _ => 0,fun _ => []⟩

/-- `CLS:SetTrgMode 1` sets bit 1 of the config register; the same name without
its last letter is an error. -/
theorem command_decoding_setTrgMode :
    dispatch silentLib ⟨0,none,0⟩ ⟨0,0⟩ (encode .setTrgMode (bytesOf "1")) =
        some (⟨2,0⟩,[.xilOut32 12 2]) ∧
      ¬ Runs .setTrgMode (bytesOf "CLS:SetTrgMod" ++ List.replicate 11 0#8) := by
  have h := command_decoding silentLib ⟨0,none,0⟩ ⟨0,0⟩
  constructor
  · rw [(h.1 .setTrgMode (bytesOf "1") (by decide) (by decide)).2.2.2]
    decide
  · rw [(h.2 (bytesOf "CLS:SetTrgMod" ++ List.replicate 11 0#8) (by decide)).1 .setTrgMode]
    unfold Names
    decide

end FpgaTest.CommandDispatch
