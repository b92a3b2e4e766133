import FpgaTest.CommandDispatch
import FpgaTest.OledRefresh

/-!
# The number on the display

The first line of the display is a blank of eight bytes and eight digits. Read
as a decimal numeral it is the count without its digits above the eighth, so the
count itself as long as it has no more than eight.
-/
namespace FpgaTest.OledNumber
open ClockedMachine CommandDispatch Oled OledDelivery OledRefresh

/-- The bytes that leave their place on the display empty. -/
def isBlank (b : BitVec 8) : Bool := b = 0x00 ∨ b = 0x20

/-- Blanks and at least one digit, as a decimal numeral. -/
def readNumeral (chars : List (BitVec 8)) : Option ℕ :=
  let digits := chars.dropWhile isBlank
  if digits ≠ [] ∧ digits.all isDigit then some (digitsValue digits) else none

/-- The character presented at string position `64-j` of a refresh. -/
def shown (s : State) (input : ℕ → Input) (e : ℕ → ℕ) (j : ℕ) : BitVec 8 :=
  (run step s input (e j+1)).sendData

/-- The characters at string bits 511:384. -/
def firstLine (s : State) (input : ℕ → Input) (e : ℕ → ℕ) : List (BitVec 8) :=
  (List.range 16).map (shown s input e)

theorem toNat_digit (count : BitVec 32) (k : ℕ) :
    (digit count k).toNat = 0x30 + count.toNat / 10^k % 10 := by
  have hlt := Nat.mod_lt (count.toNat / 10^k) (show 0 < 10 by decide)
  rw [digit,BitVec.toNat_ofNat,Nat.mod_eq_of_lt (by omega)]

theorem isDigit_digit (count : BitVec 32) (k : ℕ) : isDigit (digit count k) = true := by
  have hlt := Nat.mod_lt (count.toNat / 10^k) (show 0 < 10 by decide)
  simp only [isDigit,toNat_digit,decide_eq_true_eq]
  omega

theorem isBlank_digit (count : BitVec 32) (k : ℕ) : isBlank (digit count k) = false := by
  have hne : ∀ b : BitVec 8, b.toNat < 0x30 → digit count k ≠ b := by
    intro b hb he
    rw [← he,toNat_digit] at hb
    omega
  simp [isBlank,hne]

/-- The eight digits of the count, the most significant first. -/
def digits (count : BitVec 32) : List (BitVec 8) :=
  (List.range 8).map fun j => digit count (7-j)

theorem digitsValue_digits (count : BitVec 32) :
    digitsValue (digits count) = count.toNat % 10^8 := by
  simp only [digits,digitsValue,List.range,List.range.loop,List.map_cons,List.map_nil,
    List.foldl_cons,List.foldl_nil,toNat_digit,Nat.add_sub_cancel_left]
  norm_num
  omega

theorem readNumeral_line {blanks : List (BitVec 8)} (h : ∀ b ∈ blanks, isBlank b = true)
    (count : BitVec 32) : readNumeral (blanks ++ digits count) = some (count.toNat % 10^8) := by
  have hdrop : (blanks ++ digits count).dropWhile isBlank = digits count := by
    rw [List.dropWhile_append_of_pos h]
    simp [digits,List.range,List.range.loop,isBlank_digit]
  have hdigits : digits count ≠ [] ∧ (digits count).all isDigit = true := by
    simp [digits,isDigit_digit]
  rw [readNumeral,hdrop,if_pos hdigits,digitsValue_digits]

variable {s : State} {input : ℕ → Input} {e : ℕ → ℕ}

theorem isBlank_charAt_step (s : State) (i : Input) {j : ℕ} (hj : j < 8) :
    isBlank (charAt (step s i).countString (64-j)) = true := by
  have hstring : (step s i).countString = resetString ∨
      (step s i).countString = stringOf i.data := by
    cases hr : i.reset with
    | true => exact .inl (by simp [step,hr])
    | false => exact .inr (countString_step hr)
  rcases hstring with h | h <;> rw [h]
  · interval_cases j <;> rfl
  · interval_cases j <;> rfl

theorem refresh_first_pos (h : Refresh powerUp input e) : 0 < e 0 := by
  rw [Nat.pos_iff_ne_zero]
  intro h0
  obtain ⟨x,hx⟩ := h.fetches 0 (by decide)
  rw [h0] at hx
  simp [fetched,run,powerUp] at hx

theorem isBlank_shown (h : Refresh powerUp input e) {j : ℕ} (hj : j < 8) :
    isBlank (shown powerUp input e j) = true := by
  have hpos : 0 < e j := by
    rcases Nat.eq_zero_or_pos j with rfl | h0
    · exact refresh_first_pos h
    · exact (Nat.zero_le _).trans_lt (h.mono h0 (by omega))
  obtain ⟨k,hk⟩ : ∃ k, e j = k+1 := ⟨e j-1,by omega⟩
  obtain ⟨x,hx⟩ := h.fetches j (by omega)
  rw [shown,run_succ,sendData_of_fetched hx,hk,run_succ]
  exact isBlank_charAt_step _ _ hj

/-- With `data` held, the first line is a blank and the eight digits of it. -/
theorem readNumeral_firstLine (h : Refresh powerUp input e) {v : BitVec 32}
    (hheld : ∀ k, e 0 ≤ k → k ≤ e 63 → (input k).data = v) :
    readNumeral (firstLine powerUp input e) = some (v.toNat % 10^8) := by
  have hline : firstLine powerUp input e =
      (List.range 8).map (shown powerUp input e) ++ digits v := by
    have hrange : List.range 16 = List.range 8 ++ (List.range 8).map (8 + ·) := rfl
    rw [firstLine,hrange,List.map_append,List.map_map,digits]
    congr 1
    apply List.map_congr_left
    intro j hj
    have hj8 := List.mem_range.mp hj
    obtain ⟨h0,h63,hdigit⟩ := h.digitShown_eq (show 7-j < 8 by omega)
    have hindex : 15-(7-j) = 8+j := by omega
    rw [hheld _ h0 h63] at hdigit
    rw [digitShown,hindex] at hdigit
    exact hdigit
  rw [hline]
  apply readNumeral_line
  intro b hb
  rcases List.mem_map.mp hb with ⟨j,hj,rfl⟩
  exact isBlank_shown h (List.mem_range.mp hj)

/-- The number shown is the count without its digits above the eighth, hence the
count exactly when it is below 10^8. -/
theorem number_shown (input : ℕ → Input) (e : ℕ → ℕ) (h : Refresh powerUp input e) (v : BitVec 32)
    (hheld : ∀ k, e 0 ≤ k → k ≤ e 63 → (input k).data = v) :
    readNumeral (firstLine powerUp input e) = some (v.toNat % 10^8) ∧
      (readNumeral (firstLine powerUp input e) = some v.toNat ↔ v.toNat < 10^8) := by
  have hread := readNumeral_firstLine h hheld
  refine ⟨hread,?_⟩
  rw [hread,Option.some_inj,Nat.mod_eq_iff_lt (by decide)]

theorem number_shown_fortyTwo :
    ∃ e, Refresh powerUp (started fun _ => 42) e ∧
      readNumeral (firstLine powerUp (started fun _ => 42) e) = some 42 := by
  obtain ⟨a,-,h⟩ := exists_refresh powerUp (started fun _ => 42) le_rfl
    (fun _ => started_resetN _) (fun _ => started_reset _)
  exact ⟨_,h,((number_shown _ _ h 42 fun _ _ _ => rfl).2).mpr (by decide)⟩

/-- A count of 10^8 is shown as zero. -/
theorem number_shown_nineDigits :
    ∃ e, Refresh powerUp (started fun _ => 100000000) e ∧
      (∀ k, ((started fun _ => 100000000) k).data = 100000000) ∧
      readNumeral (firstLine powerUp (started fun _ => 100000000) e) = some 0 := by
  obtain ⟨a,-,h⟩ := exists_refresh powerUp (started fun _ => 100000000) le_rfl
    (fun _ => started_resetN _) (fun _ => started_reset _)
  exact ⟨_,h,fun _ => rfl,readNumeral_firstLine h fun _ _ _ => rfl⟩

end FpgaTest.OledNumber
