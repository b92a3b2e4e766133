import FpgaTest.RegisterShadow
import Mathlib.Data.Nat.Digits.Defs

/-!
# Trigger times

SetTrgWidth and SetTrgDelay read a time in microseconds and write it to a
register in clocks, 100 to the microsecond. The name and the space take 16 of
the 24 bytes of a message and leave eight for the number, which is not checked:
eight digits, or an exponent, reach beyond the 32 bits of the register.

The numbers are written out as the decimal strings that `atof` accepts, with
their value as an exact rational.
-/
namespace FpgaTest.TriggerTimes
open CString CommandDispatch RegisterShadow

inductive Sign where
  | unsigned | plus | minus
  deriving DecidableEq, Repr

def Sign.text : Sign → List Byte
  | .unsigned => []
  | .plus => bytesOf "+"
  | .minus => bytesOf "-"

def Sign.factor : Sign → ℤ
  | .minus => -1
  | _ => 1

def digitText (ds : List (Fin 10)) : List Byte := ds.map fun d => BitVec.ofNat 8 (0x30 + d)

/-- The number with the given digits, the most significant first. -/
def digitNumber (ds : List (Fin 10)) : ℕ := Nat.ofDigits 10 (ds.reverse.map Fin.val)

/-- `e` or `E`, a sign and at least one digit. -/
structure Exponent where
  mark : Bool
  sign : Sign
  digits : List (Fin 10)
  digits_ne : digits ≠ []

def Exponent.text (e : Exponent) : List Byte :=
  (if e.mark then bytesOf "E" else bytesOf "e") ++ e.sign.text ++ digitText e.digits

def Exponent.value (e : Exponent) : ℤ := e.sign.factor * digitNumber e.digits

/-- A decimal string: a sign, digits with or without a point, an exponent. -/
structure Decimal where
  sign : Sign
  whole : List (Fin 10)
  fraction : Option (List (Fin 10))
  exponent : Option Exponent
  digits_ne : whole ++ fraction.getD [] ≠ []

namespace Decimal

def text (d : Decimal) : List Byte :=
  d.sign.text ++ digitText d.whole ++ d.fraction.elim [] (fun ds => bytesOf "." ++ digitText ds) ++
    d.exponent.elim [] Exponent.text

def significand (d : Decimal) : ℕ := digitNumber (d.whole ++ d.fraction.getD [])

/-- The power of ten of the last digit. -/
def scale (d : Decimal) : ℤ := d.exponent.elim 0 Exponent.value - (d.fraction.getD []).length

def value (d : Decimal) : ℚ := d.sign.factor * d.significand * (10 : ℚ)^d.scale

end Decimal

theorem digitNumber_lt (ds : List (Fin 10)) : digitNumber ds < 10^ds.length := by
  have h := Nat.ofDigits_lt_base_pow_length (b := 10) (l := ds.reverse.map Fin.val) (by decide) ?_
  · simpa [digitNumber] using h
  · intro x hx
    rcases List.mem_map.mp hx with ⟨d,-,hd⟩
    rw [← hd]
    exact d.isLt

/-- Without an exponent the digits before the point bound the value. -/
theorem Decimal.value_lt {d : Decimal} (h : d.exponent = none) :
    d.value < (10 : ℚ)^d.whole.length := by
  have hdigits : (d.significand : ℚ) < 10^d.whole.length * 10^(d.fraction.getD []).length := by
    have hlt := digitNumber_lt (d.whole ++ d.fraction.getD [])
    rw [List.length_append,pow_add] at hlt
    exact_mod_cast hlt
  have hsign : (d.sign.factor : ℚ) ≤ 1 := by
    cases d.sign <;> norm_num [Sign.factor]
  have hpos : (0 : ℚ) < 10^(d.fraction.getD []).length := by positivity
  calc d.value = d.sign.factor * d.significand / 10^(d.fraction.getD []).length := by
        rw [value,scale,h,Option.elim_none,zero_sub,zpow_neg,zpow_natCast,div_eq_mul_inv]
    _ ≤ d.significand / 10^(d.fraction.getD []).length := by
        gcongr
        exact mul_le_of_le_one_left (Nat.cast_nonneg _) hsign
    _ < 10^d.whole.length := by
        rwa [div_lt_iff₀ hpos]

theorem hundred_lt_iff (t : ℚ) : t*100 < 2^32 ↔ t < 4294967296/100 := by
  constructor <;> intro h <;> linarith

variable (lib : FloatLib) (env : Env) (g : Globals)

theorem handler_trigger {c : Command} (hc : c = .setTrgDelay ∨ c = .setTrgWidth)
    (text : List Byte) :
    ∃ offset, target c = some offset ∧ handler lib env g text c =
      (toU32 (lib.atof text * 100)).map fun clocks => (g,[.xilOut32 offset clocks]) := by
  rcases hc with rfl | rfl
  · exact ⟨_,rfl,rfl⟩
  · exact ⟨_,rfl,rfl⟩

/-- The register gets the time in clocks exactly for times below 2^32 clocks;
a number without exponent and with at most seven digits before the point is one. -/
theorem trigger_time_iff {c : Command} (hc : c = .setTrgDelay ∨ c = .setTrgWidth)
    (frame : List Byte) (hlen : frame.length = CommandServer.messageSize) (d : Decimal)
    (htext : contents frame = bytesOf c.name ++ space :: d.text)
    (hatof : lib.atof d.text = d.value) (hpos : 0 ≤ d.value) :
    ((d.value*100 < 2^32 ∧ ∃ offset clocks, target c = some offset ∧
        dispatch lib env g frame = some (g,[.xilOut32 offset clocks]) ∧
        (clocks.toNat : ℤ) = ⌊d.value*100⌋) ↔ d.value < 4294967296/100) ∧
      (d.exponent = none → d.whole.length ≤ 7 → d.value < 4294967296/100) := by
  have hname : Names c frame := by
    right
    rw [htext]
    exact ⟨d.text,by simp⟩
  have hvalue : valueText (contents frame) = d.text := by
    rw [htext,valueText_append (space_notMem_name c)]
  rcases handler_trigger lib env g hc d.text with ⟨offset,htarget,hhandler⟩
  rw [dispatch_named lib env g hlen hname,hvalue,hhandler,hatof,← hundred_lt_iff]
  refine ⟨⟨fun h => h.1,fun hlt => ⟨hlt,offset,?_⟩⟩,?_⟩
  · have hfloor : ⌊d.value*100⌋₊ < 2^32 := (Nat.floor_lt (by linarith)).mpr (by exact_mod_cast hlt)
    rw [toU32_of_range (by linarith) hlt]
    refine ⟨_,htarget,rfl,?_⟩
    rw [BitVec.toNat_ofNat,Nat.mod_eq_of_lt hfloor]
    exact Int.natCast_floor_eq_floor (by linarith)
  · intro hexp hdigits
    have hbound := Decimal.value_lt hexp
    have hseven : (10 : ℚ)^d.whole.length ≤ 10^7 := pow_le_pow_right₀ (by norm_num) hdigits
    linarith

/-- `atof` on a string of digits. -/
def digitsLib : FloatLib := ⟨fun text => digitsValue (text.takeWhile isDigit),fun _ => []⟩

/-- A whole number. -/
def wholeDecimal (ds : List (Fin 10)) (h : ds ≠ []) : Decimal := ⟨.unsigned,ds,none,none,by simpa⟩

theorem value_wholeDecimal (ds : List (Fin 10)) (h : ds ≠ []) :
    (wholeDecimal ds h).value = digitNumber ds := by
  simp [wholeDecimal,Decimal.value,Decimal.significand,Decimal.scale,Sign.factor]

theorem trigger_time_five :
    ∃ offset clocks, target .setTrgDelay = some offset ∧
      dispatch digitsLib ⟨0,none,0⟩ ⟨0,0⟩ (encode .setTrgDelay (bytesOf "5")) =
        some (⟨0,0⟩,[.xilOut32 offset clocks]) ∧
      (clocks.toNat : ℤ) = ⌊(wholeDecimal [5] (by decide)).value*100⌋ := by
  have hvalue : (wholeDecimal [5] (by decide)).value = 5 := by
    rw [value_wholeDecimal]
    rfl
  have hatof : digitsLib.atof (bytesOf "5") = 5 := rfl
  have h := trigger_time_iff digitsLib ⟨0,none,0⟩ ⟨0,0⟩ (Or.inl rfl)
    (encode .setTrgDelay (bytesOf "5")) (by decide) (wholeDecimal [5] (by decide)) (by decide)
    (by rw [hvalue]; exact hatof) (by rw [hvalue]; norm_num)
  exact (h.1.mpr (h.2 rfl (by decide))).2

/-- 99999999 microseconds fit in the message but not in the register. -/
theorem trigger_time_nines :
    (encode .setTrgDelay (bytesOf "99999999")).length = CommandServer.messageSize ∧
      (wholeDecimal (List.replicate 8 9) (by decide)).text = bytesOf "99999999" ∧
      (wholeDecimal (List.replicate 8 9) (by decide)).value = 99999999 ∧
      digitsLib.atof (bytesOf "99999999") = 99999999 ∧ ¬ (99999999 : ℚ)*100 < 2^32 ∧
      dispatch digitsLib ⟨0,none,0⟩ ⟨0,0⟩ (encode .setTrgDelay (bytesOf "99999999")) = none := by
  have hvalue : (wholeDecimal (List.replicate 8 9) (by decide)).value = 99999999 := by
    rw [value_wholeDecimal]
    rfl
  refine ⟨by decide,by decide,hvalue,rfl,by norm_num,?_⟩
  rw [dispatch_named digitsLib _ _ (by decide) ((names_encode_iff _ _ (by decide)).mpr rfl),handler,
    toU32_of_large]
  · rfl
  · have hatof : digitsLib.atof (valueText (contents (encode .setTrgDelay (bytesOf "99999999")))) =
        99999999 := rfl
    rw [hatof]
    norm_num

end FpgaTest.TriggerTimes
