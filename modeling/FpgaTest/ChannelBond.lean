import FpgaTest.DelayMemory
import FpgaTest.TmdsEncoder

/-!
# Channel bonding

The de-skewing of the three channels of the receiver. Each channel writes what it
receives to a memory of 32 words, going round and round, and reads it back a few
edges later. When a blanking period begins in what a channel reads, it stops
reading and reports ready; when all three are ready they read on together.

The addresses of the source have a range of 32 values, and the counters wrap.
`pOtherChVld` and `pOtherChRdy` are the flags of the two other channels.
-/
namespace FpgaTest.ChannelBond
open ClockedMachine DelayMemory TmdsEncoder

/-- kFIFO_Depth -/
abbrev kFIFODepth : ℕ := 32

structure Input where
  pDataInRaw : BitVec 10
  pMeVld : Bool
  pOtherChVld : Bool × Bool
  pOtherChRdy : Bool × Bool

def Input.pAllVld (i : Input) : Bool := i.pMeVld && i.pOtherChVld.1 && i.pOtherChVld.2

structure State where
  pFIFO : Fin kFIFODepth → BitVec 10
  pDataFIFO : BitVec 10
  pRdA : Fin kFIFODepth
  pWrA : Fin kFIFODepth
  pRdEn : Bool
  pAllVldQ : Bool
  pAllVldBgnFlag : Bool
  pMeRdy : Bool
  pTokenFlag : Bool
  pTokenFlagQ : Bool
  pBlnkBgnFlag : Bool

/-- This channel and the two others are ready. -/
def allRdy (s : State) (i : Input) : Bool := s.pMeRdy && i.pOtherChRdy.1 && i.pOtherChRdy.2

def step (s : State) (i : Input) : State where
  pFIFO := if i.pAllVld then Function.update s.pFIFO s.pWrA i.pDataInRaw else s.pFIFO
  pDataFIFO := s.pFIFO s.pRdA
  pWrA := if i.pAllVld then s.pWrA + 1 else 0
  pRdA := if i.pAllVld = false then 0 else if s.pRdEn then s.pRdA + 1 else s.pRdA
  pAllVldQ := i.pAllVld
  pAllVldBgnFlag := !s.pAllVldQ && i.pAllVld
  pRdEn :=
    if i.pAllVld = false then false
    else if s.pAllVldBgnFlag = true ∨ allRdy s i = true then true
    else if s.pBlnkBgnFlag = true ∧ ¬ allRdy s i = true then false
    else s.pRdEn
  pTokenFlag := !s.pRdEn || isToken s.pDataFIFO
  pTokenFlagQ := s.pTokenFlag
  pBlnkBgnFlag := !s.pTokenFlagQ && s.pTokenFlag
  pMeRdy :=
    if i.pAllVld = false then false else if s.pBlnkBgnFlag then true else s.pMeRdy

/-- What the three channels get from their deserialisers at an edge. -/
structure Lanes where
  raw : Fin 3 → BitVec 10
  vld : Fin 3 → Bool

/-- The wiring of `dvi2rgb.vhd`. -/
def laneInput (s : Fin 3 → State) (i : Lanes) (ch : Fin 3) : Input where
  pDataInRaw := i.raw ch
  pMeVld := i.vld ch
  pOtherChVld := (i.vld (ch+1),i.vld (ch+2))
  pOtherChRdy := ((s (ch+1)).pMeRdy,(s (ch+2)).pMeRdy)

def bondStep (s : Fin 3 → State) (i : Lanes) (ch : Fin 3) : State := step (s ch) (laneInput s i ch)

def Lanes.allVld (i : Lanes) : Bool := i.vld 0 && i.vld 1 && i.vld 2

/-- The channels by their numbers. -/
def ch0 : Fin 3 := 0
def ch1 : Fin 3 := 1
def ch2 : Fin 3 := 2

def lanesReady (s : Fin 3 → State) : Bool := (s 0).pMeRdy && (s 1).pMeRdy && (s 2).pMeRdy

variable {s : State} {i : Input}

theorem laneInput_allVld (s : Fin 3 → State) (i : Lanes) (ch : Fin 3) :
    (laneInput s i ch).pAllVld = i.allVld := by
  simp only [Input.pAllVld,laneInput,Lanes.allVld]
  fin_cases ch <;> simp <;> cases i.vld 0 <;> cases i.vld 1 <;> cases i.vld 2 <;> rfl

theorem laneInput_allRdy (s : Fin 3 → State) (i : Lanes) (ch : Fin 3) :
    allRdy (s ch) (laneInput s i ch) = lanesReady s := by
  simp only [allRdy,laneInput,lanesReady]
  fin_cases ch <;> simp <;>
    cases (s 0).pMeRdy <;> cases (s 1).pMeRdy <;> cases (s 2).pMeRdy <;> rfl

/-- Registers behind edges without valid data. -/
structure Cleared (s : State) : Prop where
  pWrA : s.pWrA = 0
  pRdA : s.pRdA = 0
  pRdEn : s.pRdEn = false
  pAllVldQ : s.pAllVldQ = false
  pAllVldBgnFlag : s.pAllVldBgnFlag = false
  pMeRdy : s.pMeRdy = false
  pTokenFlag : s.pTokenFlag = true
  pTokenFlagQ : s.pTokenFlagQ = true
  pBlnkBgnFlag : s.pBlnkBgnFlag = false

theorem cleared_of_four (s : State) (i : ℕ → Input) (h : ∀ k < 4, (i k).pAllVld = false) :
    Cleared (run step s i 4) := by
  have h0 := h 0 (by decide)
  have h1 := h 1 (by decide)
  have h2 := h 2 (by decide)
  have h3 := h 3 (by decide)
  constructor <;> simp [run,step,h0,h1,h2,h3]

/-- The first blanking period of a stream that begins behind its first word. -/
structure Marker (d : ℕ → BitVec 10) (k : ℕ) : Prop where
  pos : 1 ≤ k
  before : isToken (d (k-1)) = false
  begins : isToken (d k) = true
  first : ∀ n, 1 ≤ n → n < k → isToken (d (n-1)) = false → isToken (d n) = false

/-- Before the marker has been seen: state `j` edges after the data became valid. -/
structure Flowing (d : ℕ → BitVec 10) (k j : ℕ) (s : State) : Prop where
  holds : Holds s.pFIFO d j
  pWrA : s.pWrA = Fin.ofNat kFIFODepth j
  pRdA : s.pRdA = Fin.ofNat kFIFODepth (j-2)
  pRdEn : s.pRdEn = decide (2 ≤ j)
  pDataFIFO : 2 ≤ j → s.pDataFIFO = d (j-3)
  pAllVldQ : s.pAllVldQ = decide (1 ≤ j)
  pAllVldBgnFlag : s.pAllVldBgnFlag = decide (j = 1)
  pMeRdy : s.pMeRdy = false
  pTokenFlag : s.pTokenFlag = (decide (j ≤ 2) || isToken (d (j-4)))
  pTokenFlagQ : s.pTokenFlagQ = (decide (j ≤ 3) || isToken (d (j-5)))
  pBlnkBgnFlag : s.pBlnkBgnFlag = decide (j = k+5)

/-- Words read before edge `j`, when the channel stops at its marker and all three
read on from edge `r`. -/
def position (k r j : ℕ) : ℕ := if j ≤ r+1 then k+4 else j+k+3-r

/-- Behind the marker. -/
structure Bonding (d : ℕ → BitVec 10) (k r j : ℕ) (s : State) : Prop where
  holds : Holds s.pFIFO d j
  pWrA : s.pWrA = Fin.ofNat kFIFODepth j
  pRdA : s.pRdA = Fin.ofNat kFIFODepth (position k r j)
  pRdEn : s.pRdEn = decide (r+1 ≤ j)
  pAllVldQ : s.pAllVldQ = true
  pAllVldBgnFlag : s.pAllVldBgnFlag = false
  pMeRdy : s.pMeRdy = true

variable {d : ℕ → BitVec 10} {k r j : ℕ}

theorem ofNat_succ (n : ℕ) : Fin.ofNat kFIFODepth n + 1 = Fin.ofNat kFIFODepth (n+1) := by
  apply Fin.ext
  simp [Fin.val_add,Nat.add_mod]

theorem flowing_of_cleared (h : Cleared s) (d : ℕ → BitVec 10) (k : ℕ) : Flowing d k 0 s where
  holds := holds_zero _ _
  pWrA := h.pWrA
  pRdA := h.pRdA
  pRdEn := h.pRdEn
  pDataFIFO hj := absurd hj (by decide)
  pAllVldQ := h.pAllVldQ
  pAllVldBgnFlag := h.pAllVldBgnFlag
  pMeRdy := h.pMeRdy
  pTokenFlag := h.pTokenFlag
  pTokenFlagQ := h.pTokenFlagQ
  pBlnkBgnFlag := h.pBlnkBgnFlag

theorem holds_step (hv : i.pAllVld = true) (hd : i.pDataInRaw = d j) (h : Holds s.pFIFO d j)
    (hw : s.pWrA = Fin.ofNat kFIFODepth j) :
    Holds (step s i).pFIFO d (j+1) ∧ (step s i).pWrA = Fin.ofNat kFIFODepth (j+1) := by
  simp only [step,hv,if_true,hw,hd]
  exact ⟨h.write,ofNat_succ j⟩

/-- The marker is the only beginning of a blanking period up to itself. -/
theorem Marker.begins_iff (h : Marker d k) {n : ℕ} (hn : n < k) :
    (!isToken (d n) && isToken (d (n+1))) = decide (n+1 = k) := by
  rcases Nat.eq_or_lt_of_le (Nat.succ_le_of_lt hn) with he | hlt
  · have hbefore : isToken (d n) = false := by
      have := h.before
      rwa [← he,Nat.succ_sub_one] at this
    have hbegins : isToken (d (n+1)) = true := by
      rw [show n+1 = k from he]
      exact h.begins
    rw [hbefore,hbegins,decide_eq_true (show n+1 = k from he)]
    rfl
  · rw [decide_eq_false (by omega)]
    cases ht : isToken (d n) with
    | true => rfl
    | false =>
        rw [h.first (n+1) (by omega) hlt ht]
        rfl

theorem Flowing.step (h : Flowing d k j s) (hm : Marker d k) (hj : j < k+5)
    (hv : i.pAllVld = true) (hd : i.pDataInRaw = d j) :
    Flowing d k (j+1) (ChannelBond.step s i) := by
  obtain ⟨hholds,hwrite⟩ := holds_step hv hd h.holds h.pWrA
  have hnot : allRdy s i = false := by simp [allRdy,h.pMeRdy]
  have hblank : s.pBlnkBgnFlag = false := by
    rw [h.pBlnkBgnFlag]
    exact decide_eq_false (by omega)
  refine ⟨hholds,hwrite,?_,?_,?_,?_,?_,?_,?_,?_,?_⟩
  · simp only [ChannelBond.step,hv,Bool.true_eq_false,if_false,h.pRdEn,h.pRdA,decide_eq_true_eq]
    split_ifs with htwo
    · rw [ofNat_succ,show j-2+1 = j+1-2 by omega]
    · rw [show j+1-2 = j-2 by omega]
  · simp only [ChannelBond.step,hv,Bool.true_eq_false,if_false,h.pAllVldBgnFlag,hnot,hblank,
      Bool.false_eq_true,or_false,false_and,h.pRdEn,decide_eq_true_eq]
    split_ifs with hone
    · exact (decide_eq_true (by omega)).symm
    · exact decide_eq_decide.mpr (by omega)
  · intro htwo
    change s.pFIFO s.pRdA = _
    rw [h.pRdA,h.holds.latest (j-2) (by omega) (show j ≤ j-2+32 by omega)]
    congr 1
  · change i.pAllVld = _
    rw [hv]
    exact (decide_eq_true (by omega)).symm
  · change (!s.pAllVldQ && i.pAllVld) = _
    rw [hv,h.pAllVldQ,Bool.and_true,← decide_not]
    exact decide_eq_decide.mpr (by omega)
  · simp [ChannelBond.step,hv,hblank,h.pMeRdy]
  · change (!s.pRdEn || isToken s.pDataFIFO) = _
    rw [h.pRdEn]
    by_cases htwo : 2 ≤ j
    · rw [h.pDataFIFO htwo,decide_eq_true htwo,decide_eq_false (by omega),show j+1-4 = j-3 by omega]
      rfl
    · rw [decide_eq_false htwo,decide_eq_true (show j+1 ≤ 2 by omega)]
      rfl
  · change s.pTokenFlag = _
    rw [h.pTokenFlag,show j+1-5 = j-4 by omega]
    congr 1
    exact decide_eq_decide.mpr (by omega)
  · change (!s.pTokenFlagQ && s.pTokenFlag) = _
    rw [h.pTokenFlagQ,h.pTokenFlag]
    by_cases hfive : 5 ≤ j
    · have hbegins := hm.begins_iff (show j-5 < k by omega)
      rw [show j-5+1 = j-4 by omega] at hbegins
      rw [decide_eq_false (show ¬ j ≤ 3 by omega),decide_eq_false (show ¬ j ≤ 2 by omega),
        Bool.false_or,Bool.false_or,hbegins]
      exact decide_eq_decide.mpr (by omega)
    · have hpos := hm.pos
      rw [decide_eq_false (show ¬ j+1 = k+5 by omega)]
      by_cases hthree : j ≤ 3
      · rw [decide_eq_true hthree]
        rfl
      · rw [decide_eq_false hthree,decide_eq_false (show ¬ j ≤ 2 by omega),show j-5 = j-4 by omega]
        cases isToken (d (j-4)) <;> rfl

/-- At the marker the channel stops reading and is ready. -/
theorem Flowing.bonding (h : Flowing d k (k+5) s) (hr : k+6 ≤ r) (hv : i.pAllVld = true)
    (hd : i.pDataInRaw = d (k+5)) : Bonding d k r (k+6) (ChannelBond.step s i) := by
  obtain ⟨hholds,hwrite⟩ := holds_step hv hd h.holds h.pWrA
  have hnot : allRdy s i = false := by simp [allRdy,h.pMeRdy]
  have hblank : s.pBlnkBgnFlag = true := by
    rw [h.pBlnkBgnFlag]
    exact decide_eq_true rfl
  have hbegin : s.pAllVldBgnFlag = false := by
    rw [h.pAllVldBgnFlag]
    exact decide_eq_false (by omega)
  have hread : s.pRdEn = true := by
    rw [h.pRdEn]
    exact decide_eq_true (by omega)
  refine ⟨hholds,hwrite,?_,?_,hv,?_,?_⟩
  · simp only [ChannelBond.step,hv,Bool.true_eq_false,if_false,hread,if_true,h.pRdA,ofNat_succ,
      position]
    rw [if_pos (by omega),show k+5-2+1 = k+4 by omega]
  · simp only [ChannelBond.step,hv,hbegin,hnot,hblank,Bool.true_eq_false,Bool.false_eq_true,
      or_false,if_false,not_false_eq_true,and_self,if_true]
    exact (decide_eq_false (by omega)).symm
  · simp [ChannelBond.step,hv,h.pAllVldQ]
  · simp [ChannelBond.step,hv,hblank]

theorem Bonding.step (h : Bonding d k r j s) (hv : i.pAllVld = true) (hd : i.pDataInRaw = d j)
    (hrdy : allRdy s i = decide (r ≤ j)) : Bonding d k r (j+1) (ChannelBond.step s i) := by
  obtain ⟨hholds,hwrite⟩ := holds_step hv hd h.holds h.pWrA
  refine ⟨hholds,hwrite,?_,?_,hv,?_,?_⟩
  · simp only [ChannelBond.step,hv,Bool.true_eq_false,if_false,h.pRdEn,h.pRdA,decide_eq_true_eq]
    split_ifs with hread
    · rw [ofNat_succ]
      congr 1
      simp only [position]
      split_ifs <;> omega
    · congr 1
      simp only [position]
      split_ifs <;> omega
  · simp only [ChannelBond.step,hv,Bool.true_eq_false,if_false,h.pAllVldBgnFlag,Bool.false_eq_true,
      false_or,hrdy,decide_eq_true_eq,h.pRdEn]
    split_ifs with hready hstop
    · exact (decide_eq_true (by omega)).symm
    · exact (decide_eq_false (by omega)).symm
    · exact decide_eq_decide.mpr (by omega)
  · simp [ChannelBond.step,hv,h.pAllVldQ]
  · simp [ChannelBond.step,hv,h.pMeRdy]

/-- What is read behind the marker: the word at the read position, or one that has
taken its place since. -/
theorem Bonding.pDataFIFO (h : Bonding d k r j s) (hk : k+6 ≤ j) (hr : k+6 ≤ r) :
    (ChannelBond.step s i).pDataFIFO =
      d (position k r j + kFIFODepth*((j-1-position k r j)/kFIFODepth)) := by
  change s.pFIFO s.pRdA = _
  rw [h.pRdA]
  apply h.holds.read
  simp only [position]
  split_ifs <;> omega

section Runs
variable {s : Fin 3 → State} {input : ℕ → Lanes} {m j : ℕ} {k : Fin 3 → ℕ}

/-- Data is not valid on all lanes at four edges, and from then on it is. -/
structure Starts (input : ℕ → Lanes) (m : ℕ) : Prop where
  invalid : ∀ n < 4, (input (m+n)).allVld = false
  valid : ∀ n, m+4 ≤ n → (input n).allVld = true

/-- The words of a lane from the edge at which all lanes have become valid. -/
def laneWords (input : ℕ → Lanes) (m : ℕ) (ch : Fin 3) (n : ℕ) : BitVec 10 :=
  (input (m+4+n)).raw ch

/-- The last marker. -/
def latest (k : Fin 3 → ℕ) : ℕ := max (max (k 0) (k 1)) (k 2)

theorem le_latest (k : Fin 3 → ℕ) (ch : Fin 3) : k ch ≤ latest k := by
  unfold latest
  fin_cases ch <;> simp

theorem run_lane (s : Fin 3 → State) (input : ℕ → Lanes) (m n : ℕ) (ch : Fin 3) :
    run bondStep s input (m+n) ch = run step (run bondStep s input m ch)
      (fun t => laneInput (run bondStep s input (m+t)) (input (m+t)) ch) n := by
  induction n with
  | zero => rfl
  | succ n ih =>
      rw [← Nat.add_assoc,run_succ,run_succ,← ih]
      rfl

theorem Starts.cleared (h : Starts input m) (ch : Fin 3) :
    Cleared (run bondStep s input (m+4) ch) := by
  rw [run_lane]
  apply cleared_of_four
  intro n hn
  rw [laneInput_allVld]
  exact h.invalid n hn

/-- A lane `j` edges after all lanes have become valid, with markers `k`. -/
def LaneAt (input : ℕ → Lanes) (m : ℕ) (k : Fin 3 → ℕ) (j : ℕ) (ch : Fin 3) (s : State) : Prop :=
  (j ≤ k ch+5 ∧ Flowing (laneWords input m ch) (k ch) j s) ∨
    (k ch+6 ≤ j ∧ Bonding (laneWords input m ch) (k ch) (latest k+6) j s)

theorem LaneAt.pMeRdy {ch : Fin 3} {s : State} (h : LaneAt input m k j ch s) :
    s.pMeRdy = decide (k ch+6 ≤ j) := by
  rcases h with ⟨hj,h⟩ | ⟨hj,h⟩
  · rw [h.pMeRdy]
    exact (decide_eq_false (by omega)).symm
  · rw [h.pMeRdy]
    exact (decide_eq_true hj).symm

theorem lanesReady_eq {s : Fin 3 → State} (h : ∀ ch, LaneAt input m k j ch (s ch)) :
    lanesReady s = decide (latest k+6 ≤ j) := by
  rw [lanesReady,(h 0).pMeRdy,(h 1).pMeRdy,(h 2).pMeRdy,← Bool.decide_and,← Bool.decide_and]
  apply decide_eq_decide.mpr
  unfold latest
  omega

theorem LaneAt.step {s : Fin 3 → State} {ch : Fin 3} (hm : Marker (laneWords input m ch) (k ch))
    (hv : (input (m+4+j)).allVld = true) (h : ∀ ch, LaneAt input m k j ch (s ch)) :
    LaneAt input m k (j+1) ch (bondStep s (input (m+4+j)) ch) := by
  have hvalid := (laneInput_allVld s (input (m+4+j)) ch).trans hv
  have hlast := le_latest k ch
  rcases h ch with ⟨hj,hflow⟩ | ⟨hj,hbond⟩
  · rcases Nat.eq_or_lt_of_le hj with he | hlt
    · subst he
      exact .inr ⟨le_rfl,hflow.bonding (by omega) hvalid rfl⟩
    · exact .inl ⟨by omega,hflow.step hm hlt hvalid rfl⟩
  · refine .inr ⟨by omega,hbond.step hvalid rfl ?_⟩
    rw [laneInput_allRdy,lanesReady_eq h]

theorem lanes_at (hs : Starts input m) (hm : ∀ ch, Marker (laneWords input m ch) (k ch)) (j : ℕ)
    (ch : Fin 3) : LaneAt input m k j ch (run bondStep s input (m+4+j) ch) := by
  induction j generalizing ch with
  | zero => exact .inl ⟨Nat.zero_le _,flowing_of_cleared (hs.cleared ch) _ _⟩
  | succ j ih => exact LaneAt.step (hm ch) (hs.valid (m+4+j) (Nat.le_add_right _ _)) ih

end Runs

theorem bonded_ready (s : Fin 3 → State) {input : ℕ → Lanes} {m : ℕ} {k : Fin 3 → ℕ}
    (hs : Starts input m) (hm : ∀ ch, Marker (laneWords input m ch) (k ch)) (j : ℕ) :
    lanesReady (run bondStep s input (m+4+j)) = decide (latest k+6 ≤ j) :=
  lanesReady_eq fun ch => lanes_at hs hm j ch

/-- What a bonded lane reads, whatever its distance from the last marker. -/
theorem bonded_read (s : Fin 3 → State) {input : ℕ → Lanes} {m : ℕ} {k : Fin 3 → ℕ}
    (hs : Starts input m) (hm : ∀ ch, Marker (laneWords input m ch) (k ch)) (j : ℕ)
    (ch : Fin 3) :
    (run bondStep s input (m+4+latest k+8+j) ch).pDataFIFO = laneWords input m ch
      (k ch+4+j + kFIFODepth*((latest k-k ch+2)/kFIFODepth)) := by
  have hlast := le_latest k ch
  rcases lanes_at (s := s) hs hm (latest k+7+j) ch with ⟨hj,-⟩ | ⟨hj,hbond⟩
  · omega
  · have hedge : m+4+latest k+8+j = m+4+(latest k+7+j)+1 := by omega
    have hposition : position (k ch) (latest k+6) (latest k+7+j) = k ch+4+j := by
      simp only [position]
      split_ifs <;> omega
    have hlag : latest k+7+j-1-(k ch+4+j) = latest k-k ch+2 := by omega
    rw [hedge,run_succ]
    refine (hbond.pDataFIFO hj (by omega)).trans ?_
    rw [hposition,hlag]

theorem bonded_word (s : Fin 3 → State) {input : ℕ → Lanes} {m : ℕ} {k : Fin 3 → ℕ}
    (hs : Starts input m) (hm : ∀ ch, Marker (laneWords input m ch) (k ch)) (j : ℕ)
    {ch : Fin 3} (hskew : latest k ≤ k ch+29) :
    (run bondStep s input (m+4+latest k+8+j) ch).pDataFIFO =
      laneWords input m ch (k ch+4+j) := by
  have hzero : (latest k-k ch+2)/kFIFODepth = 0 := Nat.div_eq_of_lt (show _ < 32 by omega)
  rw [bonded_read s hs hm j ch,hzero,Nat.mul_zero,Nat.add_zero]

/-- Once the lanes have become valid and each has a marker, all are ready six edges
behind the last marker and not before. From then on every lane gives its words from
the fourth behind its marker on, one an edge, so that the markers leave together; a
lane whose marker was more than 29 words before the last one has skipped whole rounds
of its memory. -/
theorem channels_bonded (s : Fin 3 → State) (input : ℕ → Lanes) (m : ℕ) (k : Fin 3 → ℕ)
    (hs : Starts input m) (hm : ∀ ch, Marker (laneWords input m ch) (k ch)) (j : ℕ) :
    lanesReady (run bondStep s input (m+4+j)) = decide (latest k+6 ≤ j) ∧
      ∀ ch, (run bondStep s input (m+4+latest k+8+j) ch).pDataFIFO =
          laneWords input m ch
            (k ch+4+j + kFIFODepth*((latest k-k ch+2)/kFIFODepth)) ∧
        (latest k ≤ k ch+29 → (run bondStep s input (m+4+latest k+8+j) ch).pDataFIFO =
          laneWords input m ch (k ch+4+j)) :=
  ⟨bonded_ready s hs hm j,fun ch => ⟨bonded_read s hs hm j ch,bonded_word s hs hm j⟩⟩

/-- Three lanes whose blanking periods begin one edge after the other. -/
def skewedLanes (n : ℕ) : Lanes :=
  ⟨fun ch => if 10 + ch.val ≤ n then kCtlTkn0 else 0,fun _ => decide (4 ≤ n)⟩

def unknown : State :=
  ⟨fun _ => 0,0,5,9,true,true,false,true,false,true,false⟩

theorem channels_bonded_skewed :
    (run bondStep (fun _ => unknown) skewedLanes (0+4+8+8+7) 0).pDataFIFO =
      laneWords skewedLanes 0 0 (6+4+7) := by
  have hs : Starts skewedLanes 0 := by
    constructor
    · decide
    · intro n hn
      have hvld : decide (4 ≤ n) = true := decide_eq_true (by omega)
      simp [Lanes.allVld,skewedLanes,hvld]
  have hword : ∀ ch n, laneWords skewedLanes 0 ch n =
      if 6 + ch.val ≤ n then kCtlTkn0 else 0 := by
    intro ch n
    simp only [laneWords,skewedLanes]
    congr 1
    exact propext (by omega)
  have hm : ∀ ch : Fin 3, Marker (laneWords skewedLanes 0 ch) (6 + ch.val) := by
    intro ch
    constructor
    · omega
    · rw [hword,if_neg (by omega)]
      decide
    · rw [hword,if_pos le_rfl]
      decide
    · intro n _ hn _
      rw [hword,if_neg (by omega)]
      decide
  exact ((channels_bonded (fun _ => unknown) skewedLanes 0 _ hs hm 7).2 0).2 (by decide)

end FpgaTest.ChannelBond
