import Mathlib.Tactic
import Mathlib.Data.List.TakeWhile

/-!
# Strings of C in byte arrays

An array is the list of its bytes. A string is what stands before the first
NUL; the functions below walk an array byte by byte as their C counterparts
do, and have no result when the walk or a store would leave the array. Each
gets one specification in terms of `contents`, for arrays that hold a NUL.
Nothing here depends on the program that uses them.
-/
namespace FpgaTest.CString

abbrev Byte := BitVec 8

/-- The string an array holds. -/
def contents (a : List Byte) : List Byte := a.takeWhile (· ≠ 0#8)

/-- The bytes of a text without its terminator. -/
def bytesOf (text : String) : List Byte := text.toList.map fun c => BitVec.ofNat 8 c.toNat

/-- The array of a string literal. -/
def literal (text : String) : List Byte := bytesOf text ++ [0#8]

/-- Position of the first `c`; NULL is `some none`. -/
def strchr (c : Byte) : List Byte → Option (Option ℕ)
  | [] => none
  | b::bs =>
      if b = c then some (some 0)
      else if b = 0#8 then some none
      else (strchr c bs).map (Option.map (· + 1))

/-- The `n` bytes that `strncpy` stores: the string, padded with NUL. -/
def strncpyBytes : List Byte → ℕ → Option (List Byte)
  | _, 0 => some []
  | [], _+1 => none
  | b::bs, n+1 =>
      if b = 0#8 then some (List.replicate (n+1) 0#8) else (strncpyBytes bs n).map (b :: ·)

def strncpy (dst src : List Byte) (n : ℕ) : Option (List Byte) :=
  if n ≤ dst.length then (strncpyBytes src n).map (· ++ dst.drop n) else none

/-- `a[i] = b` -/
def store (a : List Byte) (i : ℕ) (b : Byte) : Option (List Byte) :=
  if i < a.length then some (a.set i b) else none

def strcmp : List Byte → List Byte → Option ℤ
  | a::as, b::bs =>
      if a ≠ b then some ((a.toNat : ℤ) - b.toNat)
      else if a = 0#8 then some 0
      else strcmp as bs
  | _, _ => none

@[simp] theorem contents_zero_cons (bs : List Byte) : contents (0#8 :: bs) = [] := by
  simp [contents]

theorem contents_cons {b : Byte} (hb : b ≠ 0#8) (bs : List Byte) :
    contents (b :: bs) = b :: contents bs := by
  simp [contents,hb]

theorem zero_notMem_contents (a : List Byte) : 0#8 ∉ contents a := by
  intro h
  simpa using List.mem_takeWhile_imp h

theorem length_contents_lt {a : List Byte} (h : 0#8 ∈ a) : (contents a).length < a.length := by
  induction a with
  | nil => simp at h
  | cons b bs ih =>
      by_cases hb : b = 0#8
      · subst hb
        simp
      · rw [contents_cons hb]
        have hbs : 0#8 ∈ bs := by
          rcases List.mem_cons.mp h with h | h
          · exact absurd h.symm hb
          · exact h
        simpa using ih hbs

theorem contents_append_zero {s : List Byte} (h : 0#8 ∉ s) (rest : List Byte) :
    contents (s ++ 0#8 :: rest) = s := by
  induction s with
  | nil => simp
  | cons b bs ih =>
      simp only [List.mem_cons,not_or] at h
      rw [List.cons_append,contents_cons (Ne.symm h.1),ih h.2]

theorem contents_append_replicate {s : List Byte} (h : 0#8 ∉ s) (k : ℕ) :
    contents (s ++ List.replicate k 0#8) = s := by
  cases k with
  | zero =>
      rw [List.replicate_zero,List.append_nil,contents,List.takeWhile_eq_self_iff]
      intro b hb
      have hne : b ≠ 0#8 := fun he => h (he ▸ hb)
      simpa using hne
  | succ k => rw [List.replicate_succ,contents_append_zero h]

theorem contents_append_terminator (a : List Byte) : contents (a ++ [0#8]) = contents a := by
  induction a with
  | nil => simp [contents]
  | cons b bs ih =>
      by_cases hb : b = 0#8
      · simp [hb]
      · rw [List.cons_append,contents_cons hb,contents_cons hb,ih]

theorem eq_contents_append {a : List Byte} (h : 0#8 ∈ a) :
    ∃ rest, a = contents a ++ 0#8 :: rest := by
  induction a with
  | nil => simp at h
  | cons b bs ih =>
      by_cases hb : b = 0#8
      · subst hb
        exact ⟨bs,by simp⟩
      · have hbs : 0#8 ∈ bs := by
          rcases List.mem_cons.mp h with h | h
          · exact absurd h.symm hb
          · exact h
        rcases ih hbs with ⟨rest,hrest⟩
        refine ⟨rest,?_⟩
        rw [contents_cons hb,List.cons_append,← hrest]

theorem strchr_found {c : Byte} {s : List Byte} (rest : List Byte) (hc : c ∉ s) (hz : 0#8 ∉ s) :
    strchr c (s ++ c :: rest) = some (some s.length) := by
  induction s with
  | nil => simp [strchr]
  | cons b bs ih =>
      simp only [List.mem_cons,not_or] at hc hz
      rw [List.cons_append,strchr,if_neg (Ne.symm hc.1),if_neg (Ne.symm hz.1),ih hc.2 hz.2]
      rfl

theorem strchr_absent {c : Byte} {s : List Byte} (rest : List Byte) (hc : c ∉ s) (hc0 : c ≠ 0#8)
    (hz : 0#8 ∉ s) :
    strchr c (s ++ 0#8 :: rest) = some none := by
  induction s with
  | nil => simp [strchr,Ne.symm hc0]
  | cons b bs ih =>
      simp only [List.mem_cons,not_or] at hc hz
      rw [List.cons_append,strchr,if_neg (Ne.symm hc.1),if_neg (Ne.symm hz.1),ih hc.2 hz.2]
      rfl

theorem strncpyBytes_take {s : List Byte} (rest : List Byte) {n : ℕ} (hz : 0#8 ∉ s)
    (hn : n ≤ s.length) :
    strncpyBytes (s ++ rest) n = some (s.take n) := by
  induction s generalizing n with
  | nil =>
      obtain rfl : n = 0 := by simpa using hn
      simp [strncpyBytes]
  | cons b bs ih =>
      simp only [List.mem_cons,not_or] at hz
      cases n with
      | zero => rfl
      | succ n =>
          rw [List.cons_append,strncpyBytes,if_neg (Ne.symm hz.1),ih hz.2 (by simpa using hn)]
          rfl

theorem strncpyBytes_pad {s rest : List Byte} {n : ℕ} (hz : 0#8 ∉ s) (hn : s.length ≤ n) :
    strncpyBytes (s ++ 0#8 :: rest) n = some (s ++ List.replicate (n - s.length) 0#8) := by
  induction s generalizing n with
  | nil =>
      cases n with
      | zero => rfl
      | succ n => simp [strncpyBytes]
  | cons b bs ih =>
      simp only [List.mem_cons,not_or] at hz
      cases n with
      | zero => simp at hn
      | succ n =>
          rw [List.cons_append,strncpyBytes,if_neg (Ne.symm hz.1),ih hz.2 (by simpa using hn)]
          simp

/-- `strcmp` reports equality exactly for equal strings. -/
theorem strcmp_eq_zero_iff {a b : List Byte} (ha : 0#8 ∈ a) (hb : 0#8 ∈ b) :
    ∃ d, strcmp a b = some d ∧ (d = 0 ↔ contents a = contents b) := by
  induction a generalizing b with
  | nil => simp at ha
  | cons x xs ih =>
      cases b with
      | nil => simp at hb
      | cons y ys =>
          rw [strcmp]
          by_cases hxy : x = y
          · subst hxy
            by_cases hx : x = 0#8
            · subst hx
              exact ⟨0,by simp,by simp⟩
            · have hxs : 0#8 ∈ xs := by simpa [Ne.symm hx] using ha
              have hys : 0#8 ∈ ys := by simpa [Ne.symm hx] using hb
              rcases ih hxs hys with ⟨d,hd,hiff⟩
              refine ⟨d,by simpa [hx] using hd,?_⟩
              rw [hiff,contents_cons hx,contents_cons hx]
              simp
          · refine ⟨(x.toNat : ℤ) - y.toNat,by simp [hxy],?_⟩
            constructor
            · intro h
              exact absurd (BitVec.eq_of_toNat_eq (by omega)) hxy
            · intro h
              by_cases hx : x = 0#8
              · subst hx
                rw [contents_zero_cons,contents_cons (Ne.symm hxy)] at h
                simp at h
              · by_cases hy : y = 0#8
                · subst hy
                  rw [contents_zero_cons,contents_cons hx] at h
                  simp at h
                · rw [contents_cons hx,contents_cons hy] at h
                  exact absurd (List.cons.inj h).1 hxy

end FpgaTest.CString
