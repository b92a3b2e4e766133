import FpgaTest.OledDelivery

/-!
# What a refresh shows

A refresh is one pass over the string, from position 64 down to position 1; what
is presented in it is what the panel receives (`OledDelivery`). The string is
rewritten from `data` in every clock, and nothing holds it while its characters
are fetched one by one. Each digit is therefore the digit of the value that `data`
had in the clock before its own fetch. The eight digits belong to one value when
those eight values agree in their last eight digits, and there are runs in which
they do not.
-/
namespace FpgaTest.OledRefresh
open ClockedMachine Oled OledDelivery

/-- Edge `e j` fetches the character at position `64-j`, and these are consecutive
fetches of a run without reset. -/
structure Refresh (s : State) (input : ℕ → Input) (e : ℕ → ℕ) : Prop where
  running : ∀ k, e 0 ≤ k → k ≤ e 63 → (input k).reset = false
  fetches : ∀ j < 64, ∃ x, fetched (run step s input (e j)) (input (e j)) = some (64-j,x)
  consecutive : ∀ j < 63, e j < e (j+1) ∧
    ∀ k, e j < k → k < e (j+1) → fetched (run step s input k) (input k) = none

/-- The character presented for the decimal digit `d`, at string position `49+d`. -/
def digitShown (s : State) (input : ℕ → Input) (e : ℕ → ℕ) (d : ℕ) : BitVec 8 :=
  (run step s input (e (15-d)+1)).sendData

/-- The digits shown are those of one value that `data` had during the refresh. -/
def Snapshot (s : State) (input : ℕ → Input) (e : ℕ → ℕ) : Prop :=
  ∃ t, e 0 ≤ t ∧ t ≤ e 63 ∧ ∀ d < 8, digitShown s input e d = digit (input t).data d

variable {s : State} {input : ℕ → Input} {e : ℕ → ℕ}

theorem Refresh.mono (h : Refresh s input e) {a b : ℕ} (hab : a < b) (hb : b < 64) : e a < e b := by
  induction b, hab using Nat.le_induction with
  | base => exact (h.consecutive a (by omega)).1
  | succ b _ ih => exact (ih (by omega)).trans (h.consecutive b (by omega)).1

theorem charAt_digit (count : BitVec 32) {d : ℕ} (h : d < 8) :
    charAt (stringOf count) (49+d) = digit count d := by
  interval_cases d <;> rfl

theorem sendData_of_fetched {s : State} {i : Input} {p : ℕ} {x : BitVec 8}
    (h : fetched s i = some (p,x)) :
    (step s i).sendData = charAt s.countString p := by
  simp only [fetched,Option.ite_none_right_eq_some,Bool.and_eq_true,beq_iff_eq,
    Bool.not_eq_true',Option.some.injEq,Prod.mk.injEq] at h
  obtain ⟨⟨⟨hr,hs⟩,hd⟩,hp,-⟩ := h
  rw [(step_fetch hr hs hd).1,← hp]

theorem countString_step {s : State} {i : Input} (h : i.reset = false) :
    (step s i).countString = stringOf i.data := by
  simp [step,h]

theorem Refresh.digitShown_eq (h : Refresh s input e) {d : ℕ} (hd : d < 8) :
    e 0 ≤ e (15-d)-1 ∧ e (15-d)-1 ≤ e 63 ∧
      digitShown s input e d = digit (input (e (15-d)-1)).data d := by
  have h0 := h.mono (a := 0) (b := 15-d) (by omega) (by omega)
  have h63 := h.mono (a := 15-d) (b := 63) (by omega) (by omega)
  refine ⟨by omega,by omega,?_⟩
  obtain ⟨x,hx⟩ := h.fetches (15-d) (by omega)
  obtain ⟨k,hk⟩ : ∃ k, e (15-d) = k+1 := ⟨e (15-d)-1,by omega⟩
  have hpos : 64-(15-d) = 49+d := by omega
  rw [digitShown,run_succ,sendData_of_fetched hx,hpos,hk,run_succ,
    countString_step (h.running k (by omega) (by omega)),charAt_digit _ hd]
  rfl

theorem digit_congr {a b : BitVec 32} (h : a.toNat % 10^8 = b.toNat % 10^8) {d : ℕ} (hd : d < 8) :
    digit a d = digit b d := by
  have hlow : ∀ x : ℕ, x / 10^d % 10 = x % 10^8 / 10^d % 10 := by
    intro x
    have hsplit : 10^8 = 10^d * 10^(8-d) := by
      rw [← Nat.pow_add]
      congr 1
      omega
    have hdvd : 10 ∣ 10^(8-d) := dvd_pow_self 10 (by omega)
    rw [hsplit,Nat.mod_mul_right_div_self,Nat.mod_mod_of_dvd _ hdvd]
  rw [digit,digit,hlow a.toNat,hlow b.toNat,h]

/-- Every digit of a refresh is the digit of a value that `data` had during the
refresh, in the clock before the digit was fetched; the digits belong to one value
when these values agree in their last eight digits. -/
theorem refresh_digits (s : State) (input : ℕ → Input) (e : ℕ → ℕ) (h : Refresh s input e) :
    (∀ d < 8, e 0 ≤ e (15-d)-1 ∧ e (15-d)-1 ≤ e 63 ∧
      digitShown s input e d = digit (input (e (15-d)-1)).data d) ∧
    ((∀ d < 8, (input (e (15-d)-1)).data.toNat % 10^8 =
        (input (e 8-1)).data.toNat % 10^8) → Snapshot s input e) := by
  refine ⟨fun d hd => h.digitShown_eq hd,fun hagree => ?_⟩
  obtain ⟨h0,h63,-⟩ := h.digitShown_eq (show 7 < 8 by decide)
  refine ⟨e 8-1,h0,h63,fun d hd => ?_⟩
  rw [(h.digitShown_eq hd).2.2]
  exact digit_congr (hagree d hd) hd

/-- The first 64 fetches after a reset are a refresh. -/
theorem exists_refresh (s : State) (input : ℕ → Input) {m : ℕ} (hm : 10 ≤ m)
    (hreset : ∀ k < m, (input k).resetN = false)
    (hrun : ∀ k, m ≤ k → (input k).reset = false) :
    ∃ a : ℕ → ℕ, (∀ j < 64, (emitted step s input fetched m (a j)).length = j) ∧
      Refresh s input (fun j => m + a j) := by
  obtain ⟨c,hc⟩ := exists_enumerates step s input fetched m
  obtain ⟨len,hlen⟩ := fetched_unbounded hm hreset hrun hc 64
  have hfetch : ∀ j, ∃ a, j < 64 → (emitted step s input fetched m a).length = j ∧
      ∃ x, fetched (run step s input (m+a)) (input (m+a)) = some x := by
    intro j
    by_cases hj : j < 64
    · obtain ⟨a,-,ha⟩ := exists_emission (lt_of_lt_of_le hj hlen)
      exact ⟨a,fun _ => ha⟩
    · exact ⟨0,fun h => absurd h hj⟩
  choose a ha using hfetch
  refine ⟨a,fun j hj => (ha j hj).1,?_,?_,?_⟩
  · intro k hk _
    exact hrun k (by omega)
  · intro j hj
    obtain ⟨hlength,x,hx⟩ := ha j hj
    have hpos := (tracks_run hm hreset hrun hc (a j)).2.of_fetched hx
    rw [hlength,Nat.mod_eq_of_lt hj] at hpos
    exact ⟨_,hx.trans (congrArg some hpos)⟩
  · intro j hj
    obtain ⟨hlength,x,hx⟩ := ha j (by omega)
    have hlength' := (ha (j+1) (by omega)).1
    obtain ⟨hlt,hsilent⟩ := emission_next hx (hlength'.trans (by rw [hlength]))
    refine ⟨by omega,fun k hk hk' => ?_⟩
    obtain ⟨b,rfl⟩ : ∃ b, k = m+b := ⟨k-m,by omega⟩
    exact hsilent b (by omega) (by omega)

theorem refresh_digits_constant : ∃ e, Refresh powerUp (started fun _ => 42) e ∧
    Snapshot powerUp (started fun _ => 42) e := by
  obtain ⟨a,-,h⟩ := exists_refresh powerUp (started fun _ => 42) le_rfl
    (fun _ => started_resetN _) (fun _ => started_reset _)
  exact ⟨_,h,(refresh_digits _ _ _ h).2 fun _ _ => rfl⟩

/-- The count jumps from 0 to 11111111 in clock `t`. -/
def jump (t n : ℕ) : BitVec 32 := if n < t then 0 else 11111111

theorem fetched_congr (s : State) {i i' : Input} (h : i.reset = i'.reset) :
    fetched s i = fetched s i' := by
  simp [fetched,h]

/-- When the count jumps at the fetch of the first digit, the refresh shows
01111111. -/
theorem refresh_torn : ∃ t e, Refresh powerUp (started (jump t)) e ∧
    ¬ Snapshot powerUp (started (jump t)) e := by
  obtain ⟨a,hlength,h⟩ := exists_refresh powerUp (started fun _ => 0) le_rfl
    (fun _ => started_resetN _) (fun _ => started_reset _)
  have hagree : ∀ k < 10 + a 8, started (fun _ => 0) k = started (jump (10 + a 8)) k := by
    intro k hk
    simp [started,jump,hk]
  obtain ⟨b,hlength',h'⟩ := exists_refresh powerUp (started (jump (10 + a 8)))
    le_rfl (fun _ => started_resetN _) (fun _ => started_reset _)
  have hsame : a 8 = b 8 := by
    obtain ⟨x,hx⟩ := h.fetches 8 (by decide)
    obtain ⟨y,hy⟩ := h'.fetches 8 (by decide)
    have hreset : (started (fun _ => 0) (10 + a 8)).reset =
        (started (jump (10 + a 8)) (10 + a 8)).reset := rfl
    simp only [run_congr step powerUp hagree] at hx
    rw [fetched_congr _ hreset] at hx
    refine emission_unique hx hy ?_
    rw [hlength' 8 (by decide),← emitted_congr step powerUp fetched hagree,hlength 8 (by decide)]
  refine ⟨10 + a 8,_,h',?_⟩
  intro hsnap
  obtain ⟨t,-,-,hdigits⟩ := hsnap
  have h7 := (h'.digitShown_eq (show 7 < 8 by decide)).2.2.symm.trans (hdigits 7 (by decide))
  have h6 := (h'.digitShown_eq (show 6 < 8 by decide)).2.2.symm.trans (hdigits 6 (by decide))
  have hlt : 10 + b 8 < 10 + b 9 := h'.mono (a := 8) (b := 9) (by decide) (by decide)
  have hfirst : (started (jump (10 + a 8)) (10 + b 8 - 1)).data = 0 := by
    simp only [started,jump,hsame]
    exact if_pos (by omega)
  have hsecond : (started (jump (10 + a 8)) (10 + b 9 - 1)).data = 11111111 := by
    simp only [started,jump,hsame]
    exact if_neg (by omega)
  simp only [hfirst] at h7
  simp only [hsecond] at h6
  by_cases ht : t < 10 + a 8
  · have hdata : (started (jump (10 + a 8)) t).data = 0 := if_pos ht
    rw [hdata] at h6
    exact absurd h6 (by decide)
  · have hdata : (started (jump (10 + a 8)) t).data = 11111111 := if_neg ht
    rw [hdata] at h7
    exact absurd h7 (by decide)

end FpgaTest.OledRefresh
