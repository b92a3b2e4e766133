import FpgaTest.RegisterShadow

/-!
# From a requested voltage to the DAC code

`get_adc` scales a voltage so that -5 V and 5 V become the ends of 20 bits and
adds `voltage_offset`. The sum goes through two conversions that nothing guards:
to `u32`, which is undefined outside the range, and to the 20 pins of the GPIO,
which drops the upper bits. The offset is parsed as a signed number but kept in
an unsigned variable, so a negative one arrives as a sum above the range.
-/
namespace FpgaTest.DacCode
open CString CommandDispatch RegisterShadow

/-- `CONFIG.C_GPIO_WIDTH` of `axi_gpio_0` -/
def gpioWidth : ℕ := 20

/-- What a write to `gpioVolt` puts on the pins of `cn0531.data`. -/
def gpioOut (value : BitVec 32) : BitVec gpioWidth := value.setWidth gpioWidth

/-- The code for a requested voltage, where the conversion is defined. -/
def dacCode (voltageOffset : BitVec 32) (voltage : ℚ) : Option (BitVec gpioWidth) :=
  (getAdc voltage voltageOffset).map gpioOut

theorem toNat_gpioOut {value : BitVec 32} (h : value.toNat < 2^20) :
    (gpioOut value).toNat = value.toNat := by
  rw [gpioOut,BitVec.toNat_setWidth]
  exact Nat.mod_eq_of_lt h

theorem offset_process (lib : FloatLib) (g : Globals) (m : Message)
    (hlen : m.frame.length = CommandServer.messageSize) :
    (process lib g m).1.voltageOffset =
      if commandOf m.frame = some .setOffset then atoi m.value else g.voltageOffset := by
  cases hc : commandOf m.frame with
  | none =>
      rcases process_error lib g m hlen hc with ⟨cmd,hcmd⟩
      rw [hcmd]
      rfl
  | some c =>
      rw [process_running lib g m hlen hc]
      cases c <;> rfl

theorem offset_session (lib : FloatLib) (ms : List Message)
    (h : ∀ m ∈ ms, m.frame.length = CommandServer.messageSize) :
    (session lib ms).1.voltageOffset =
      (lastRunning .setOffset ms).elim 0 fun m => atoi m.value := by
  induction ms using List.reverseRecOn with
  | nil => rfl
  | append_singleton ms m ih =>
      have hs := ih fun x hx => h x (List.mem_append_left _ hx)
      have hlen := h m (List.mem_append_right _ (List.mem_singleton_self m))
      rw [session_concat,elim_lastRunning_concat,turn,offset_process lib _ m hlen,hs]

theorem toNat_of_toInt {w : BitVec 32} {k : ℤ} (h : w.toInt = k) :
    (w.toNat : ℤ) = if 0 ≤ k then k else k + 2^32 := by
  have hw := w.isLt
  rw [BitVec.toInt_eq_toNat_cond] at h
  split_ifs at h ⊢ <;> omega

variable (lib : FloatLib) (env : Env) (ms : List Message) (frame : List Byte)

/-- With the offset of the last SetOffset, a voltage whose code has 20 bits is
converted as requested exactly when the offset is not negative. -/
theorem setVolt_code_iff (hms : ∀ m ∈ ms, m.frame.length = CommandServer.messageSize)
    (hframe : frame.length = CommandServer.messageSize) (hname : Names .setVolt frame)
    {m : Message} (hm : lastRunning .setOffset ms = some m) {k : ℤ}
    (hk : (atoi m.value).toInt = k) {v : ℚ} (hv : lib.atof (valueText (contents frame)) = v)
    (hlo : 0 ≤ (v + 5)*(1048575/10) + k) (hhi : (v + 5)*(1048575/10) + k < 2^20) :
    (∃ adcValue, dispatch lib env (session lib ms).1 frame =
        some ((session lib ms).1,setVoltage adcValue) ∧
      ((gpioOut adcValue).toNat : ℤ) = ⌊(v + 5)*(1048575/10) + k⌋) ↔ 0 ≤ k := by
  have hoffset : (session lib ms).1.voltageOffset = atoi m.value := by
    rw [offset_session lib ms hms,hm]
    rfl
  have hcast := toNat_of_toInt hk
  rw [dispatch_named lib env _ hframe hname,handler,hv,hoffset,getAdc]
  constructor
  · intro h
    by_contra hneg
    rw [if_neg hneg] at hcast
    have hsum : ((atoi m.value).toNat : ℚ) = k + 2^32 := by exact_mod_cast hcast
    rw [hsum,toU32_of_large (by linarith)] at h
    rcases h with ⟨adcValue,h,-⟩
    contradiction
  · intro hpos
    rw [if_pos hpos] at hcast
    have hsum : ((atoi m.value).toNat : ℚ) = k := by exact_mod_cast hcast
    rw [hsum,toU32_of_range (by linarith) (by linarith)]
    refine ⟨_,rfl,?_⟩
    have hlt : ⌊(v + 5)*(1048575/10) + k⌋₊ < 2^20 :=
      (Nat.floor_lt hlo).mpr (by exact_mod_cast hhi)
    have hvalue : (BitVec.ofNat 32 ⌊(v + 5)*(1048575/10) + (k : ℚ)⌋₊).toNat =
        ⌊(v + 5)*(1048575/10) + (k : ℚ)⌋₊ := by
      rw [BitVec.toNat_ofNat,Nat.mod_eq_of_lt (hlt.trans (by decide))]
    rw [toNat_gpioOut (by rw [hvalue]; exact hlt),hvalue]
    exact Int.natCast_floor_eq_floor hlo

/-- The message that sets the offset to `text`. -/
def offsetMessage (text : String) : Message := ⟨⟨0,none,0⟩,encode .setOffset (bytesOf text),0⟩

theorem setVolt_code_offset_five :
    ∃ adcValue, dispatch silentLib ⟨0,none,0⟩ (session silentLib [offsetMessage "5"]).1
        (encode .setVolt (bytesOf "0")) =
      some ((session silentLib [offsetMessage "5"]).1,setVoltage adcValue) ∧
      ((gpioOut adcValue).toNat : ℤ) = ⌊((0 : ℚ) + 5)*(1048575/10) + (5 : ℤ)⌋ := by
  have hm : lastRunning .setOffset [offsetMessage "5"] = some (offsetMessage "5") := rfl
  have hzero : silentLib.atof (valueText (contents (encode .setVolt (bytesOf "0")))) = 0 := rfl
  exact (setVolt_code_iff silentLib ⟨0,none,0⟩ [offsetMessage "5"] (encode .setVolt (bytesOf "0"))
    (by decide) (by decide) ((names_encode_iff _ _ (by decide)).mpr rfl) hm (by decide) hzero
    (by norm_num) (by norm_num)).mpr (by decide)

/-- After `CLS:SetOffset -1` the request of 0 V, whose code is 524286, has no
defined conversion. -/
theorem setVolt_code_negativeOffset :
    lastRunning .setOffset [offsetMessage "-1"] = some (offsetMessage "-1") ∧
      (atoi (offsetMessage "-1").value).toInt = -1 ∧
      0 ≤ ((0 : ℚ) + 5)*(1048575/10) + (-1 : ℤ) ∧
      ((0 : ℚ) + 5)*(1048575/10) + (-1 : ℤ) < 2^20 ∧
      silentLib.atof (bytesOf "0") = 0 ∧
      dispatch silentLib ⟨0,none,0⟩ (session silentLib [offsetMessage "-1"]).1
        (encode .setVolt (bytesOf "0")) = none := by
  refine ⟨rfl,by decide,by norm_num,by norm_num,rfl,?_⟩
  have hoffset : (session silentLib [offsetMessage "-1"]).1.voltageOffset = 0xFFFFFFFF#32 := by
    decide
  rw [dispatch_named silentLib _ _ (by decide) ((names_encode_iff _ _ (by decide)).mpr rfl),handler,
    hoffset,getAdc,silentLib,toU32_of_large (by norm_num)]
  rfl

theorem dacCode_eq_some {offset : BitVec 32} {v : ℚ} {code : BitVec gpioWidth}
    (h : dacCode offset v = some code) :
    -1 < (v + 5)*(1048575/10) + offset.toNat ∧
      code.toNat = ⌊(v + 5)*(1048575/10) + (offset.toNat : ℚ)⌋₊ % 2^20 := by
  rcases Option.map_eq_some_iff.mp h with ⟨value,hvalue,hcode⟩
  rcases toU32_eq_some hvalue with ⟨hlo,-,hfloor⟩
  refine ⟨hlo,?_⟩
  rw [← hcode,gpioOut,BitVec.toNat_setWidth,hfloor]
  rfl

/-- The voltage whose scaled value with the offset is `n`. -/
def voltageOf (offset : BitVec 32) (n : ℕ) : ℚ := (n - offset.toNat)/(1048575/10) - 5

theorem dacCode_voltageOf (offset : BitVec 32) {n : ℕ} (h : n < 2^32) :
    dacCode offset (voltageOf offset n) = some (BitVec.ofNat gpioWidth n) := by
  have hsum : (voltageOf offset n + 5)*(1048575/10) + (offset.toNat : ℚ) = n := by
    rw [voltageOf]
    ring
  have hn : (n : ℚ) < 2^32 := by exact_mod_cast h
  have hpos : (-1 : ℚ) < n := lt_of_lt_of_le (by norm_num) (Nat.cast_nonneg n)
  rw [dacCode,getAdc,hsum,toU32_of_range hpos hn,Nat.floor_natCast,Option.map_some]
  congr 1
  apply BitVec.eq_of_toNat_eq
  simp only [gpioOut,BitVec.toNat_setWidth,BitVec.toNat_ofNat,Nat.mod_eq_of_lt h]

/-- The codes of the requests up to `limit` are in the order of the voltages
exactly when the scaled limit, offset included, stays below 2^20. -/
theorem dacCode_monotone_iff (offset : BitVec 32) (limit : ℚ) :
    (∀ v w code code', v ≤ w → w ≤ limit → dacCode offset v = some code →
      dacCode offset w = some code' → code ≤ code') ↔
    (limit + 5)*(1048575/10) + offset.toNat < 2^20 := by
  constructor
  · intro h
    by_contra hge
    rw [not_lt] at hge
    have hle : voltageOf offset (2^20) ≤ limit := by
      rw [voltageOf]
      push_cast
      linarith
    have horder : voltageOf offset (2^20-1) ≤ voltageOf offset (2^20) := by
      rw [voltageOf,voltageOf]
      norm_num
      linarith
    have hcode := h _ _ _ _ horder hle (dacCode_voltageOf offset (by decide))
      (dacCode_voltageOf offset (by decide))
    exact absurd hcode (by decide)
  · intro hlimit v w code code' hvw hw hv hw'
    rcases dacCode_eq_some hv with ⟨-,hcode⟩
    rcases dacCode_eq_some hw' with ⟨-,hcode'⟩
    have hscaled : (v + 5)*(1048575/10) + (offset.toNat : ℚ) ≤
        (w + 5)*(1048575/10) + offset.toNat := by linarith
    have hsmall : ⌊(w + 5)*(1048575/10) + (offset.toNat : ℚ)⌋₊ < 2^20 :=
      (Nat.floor_lt' (by decide)).mpr (by push_cast; linarith)
    have hfloor := Nat.floor_le_floor hscaled
    rw [BitVec.le_def,hcode,hcode',Nat.mod_eq_of_lt hsmall,
      Nat.mod_eq_of_lt (hfloor.trans_lt hsmall)]
    exact hfloor

/-- Without an offset 5 V gives the largest code and 6 V a tenth of it. -/
theorem dacCode_wraps : dacCode 0 5 = some 1048575 ∧ dacCode 0 6 = some 104856 ∧
    ¬ (1048575 : BitVec gpioWidth) ≤ 104856 := by
  have hfull : getAdc 5 0 = some (BitVec.ofNat 32 1048575) := by
    rw [getAdc,toU32_of_range (by norm_num) (by norm_num)]
    norm_num
  have hfloor : ⌊((6 : ℚ) + 5)*(1048575/10) + (0 : BitVec 32).toNat⌋₊ = 1153432 := by
    rw [Nat.floor_eq_iff (by norm_num)]
    norm_num
  have habove : getAdc 6 0 = some (BitVec.ofNat 32 1153432) := by
    rw [getAdc,toU32_of_range (by norm_num) (by norm_num),hfloor]
  rw [dacCode,dacCode,hfull,habove]
  decide

end FpgaTest.DacCode
