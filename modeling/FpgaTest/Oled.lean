import FpgaTest.OledPanel

/-!
# The display block

`top.v` of the display: the text of 64 characters, rewritten from `data` in every
clock, and the machine that hands the characters to the controller one by one.
`count_string` is kept as its 64 bytes, the most significant first, so that the
character with string position `p` has index `64-p`. A blank assigned to a field
of several bytes is its last byte; the bytes before it are zero. The fourth value
of the state register is never written and is left out.

The feeder and the controller read each other's registers as they are before the
edge. `Feeding` relates the two through the number of characters fetched from the
string and the number accepted by the controller.
-/
namespace FpgaTest.Oled
open CharRom OledProgram OledStages

inductive Fsm where
  | idle | send | done
  deriving DecidableEq, Repr

structure Input where
  resetN : Bool
  resetBtn : Bool
  data : BitVec 32
  deriving DecidableEq, Repr

def Input.reset (i : Input) : Bool := !i.resetN || i.resetBtn

structure State where
  state : Fsm
  sendData : BitVec 8
  sendDataValid : Bool
  byteCounter : ℕ
  countString : List (BitVec 8)
  control : OledControl.State
  deriving DecidableEq, Repr

def stringLen : ℕ := 64

/-- The character of a decimal digit of the count. -/
def digit (count : BitVec 32) (k : ℕ) : BitVec 8 := BitVec.ofNat 8 (0x30 + count.toNat / 10^k % 10)

/-- A blank in a field of `n` bytes. -/
def blank (n : ℕ) : List (BitVec 8) := List.replicate (n-1) 0 ++ [0x20]

def resetString : List (BitVec 8) := List.replicate 56 0 ++ List.replicate 8 0x30

def stringOf (count : BitVec 32) : List (BitVec 8) :=
  blank 8 ++ [digit count 7,digit count 6,digit count 5,digit count 4,digit count 3,
    digit count 2,digit count 1,digit count 0] ++ blank 16 ++ blank 16 ++ blank 16

/-- The character with string position `p`. -/
def charAt (str : List (BitVec 8)) (p : ℕ) : BitVec 8 := str.getD (stringLen-p) 0

/-- What the controller sees at an edge. -/
def controlInput (s : State) (i : Input) : OledControl.Input :=
  ⟨i.resetN,i.resetBtn,s.sendData.setWidth 7,s.sendDataValid⟩

/-- The feeder's own registers. -/
def feed (s : State) (i : Input) : State :=
  if i.reset then
    { s with state := .idle, byteCounter := stringLen, sendDataValid := false }
  else match s.state with
  | .idle =>
      if !s.control.ctrl.sendDone then
        { s with
          sendData := charAt s.countString s.byteCounter, sendDataValid := true, state := .send }
      else s
  | .send =>
      if s.control.ctrl.sendDone then
        { s with
          sendDataValid := false
          byteCounter := s.byteCounter - 1
          state := if s.byteCounter ≠ 1 then .idle else .done }
      else s
  | .done => { s with state := .idle, byteCounter := stringLen, sendDataValid := false }

def step (s : State) (i : Input) : State :=
  { feed s i with
    countString := if i.reset then resetString else stringOf i.data
    control := OledControl.step s.control (controlInput s i) }

/-- The string position and the character fetched at an edge. -/
def fetched (s : State) (i : Input) : Option (ℕ × BitVec 8) :=
  if !i.reset && s.state == .idle && !s.control.ctrl.sendDone then
    some (s.byteCounter,charAt s.countString s.byteCounter)
  else none

/-- The byte taken by the serial engine at an edge. -/
def latched (s : State) (i : Input) : Option Transfer :=
  OledControl.latched s.control (controlInput s i)

/-- What the panel samples at an edge. -/
def sample (s : State) (i : Input) : Option (Bool × Bool) :=
  OledPanel.sample s.control (controlInput s i)

variable {s : State} {i : Input}

theorem Input.resetN_of_not_reset (h : i.reset = false) : i.resetN = true := by
  simp only [Input.reset,Bool.or_eq_false_iff,Bool.not_eq_false'] at h
  exact h.1

@[simp] theorem step_control (s : State) (i : Input) :
    (step s i).control = OledControl.step s.control (controlInput s i) := rfl
@[simp] theorem controlInput_sendDataValid (s : State) (i : Input) :
    (controlInput s i).sendDataValid = s.sendDataValid := rfl

/-- The registers that the feeder does not write. -/
def refreshed (s : State) (i : Input) : State :=
  { s with
    countString := stringOf i.data, control := OledControl.step s.control (controlInput s i) }

theorem step_fetch (hr : i.reset = false) (hs : s.state = .idle)
    (hd : s.control.ctrl.sendDone = false) :
    step s i = { refreshed s i with
      state := .send, sendData := charAt s.countString s.byteCounter, sendDataValid := true } ∧
    fetched s i = some (s.byteCounter,charAt s.countString s.byteCounter) := by
  simp [step,feed,fetched,hr,hs,hd,refreshed]

theorem step_waiting (hr : i.reset = false)
    (h : (s.state = .idle ∧ s.control.ctrl.sendDone = true) ∨
      (s.state = .send ∧ s.control.ctrl.sendDone = false)) :
    step s i = refreshed s i ∧ fetched s i = none := by
  rcases h with ⟨hs,hd⟩ | ⟨hs,hd⟩ <;> simp [step,feed,fetched,hr,hs,hd,refreshed]

theorem step_withdraw (hr : i.reset = false) (hs : s.state = .send)
    (hd : s.control.ctrl.sendDone = true) :
    step s i = { refreshed s i with
      sendDataValid := false, byteCounter := s.byteCounter - 1,
      state := if s.byteCounter ≠ 1 then .idle else .done } ∧
    fetched s i = none := by
  simp [step,feed,fetched,hr,hs,hd,refreshed]

theorem step_wrap (hr : i.reset = false) (hs : s.state = .done) :
    step s i = { refreshed s i with
      state := .idle, byteCounter := stringLen, sendDataValid := false } ∧
    fetched s i = none := by
  simp [step,feed,fetched,hr,hs,refreshed]

/-- The position after `n` fetches. -/
def Counting (s : State) (n : ℕ) : Prop :=
  match s.state with
  | .idle => s.byteCounter = 64-n%64
  | .send => 0 < n ∧ s.byteCounter = 64-(n-1)%64
  | .done => n % 64 = 0

theorem Counting.of_fetched {n : ℕ} {x : ℕ × BitVec 8} (h : Counting s n)
    (hx : fetched s i = some x) :
    x = (64-n%64,charAt s.countString (64-n%64)) := by
  unfold Counting at h
  simp only [Oled.fetched,Option.ite_none_right_eq_some,Bool.and_eq_true,beq_iff_eq] at hx
  obtain ⟨⟨⟨-,hs⟩,-⟩,hx⟩ := hx
  simp only [hs] at h
  rw [← h]
  exact (Option.some.inj hx).symm

theorem Counting.step {n : ℕ} (h : Counting s n) (hr : i.reset = false) :
    Counting (step s i) (n+(fetched s i).toList.length) := by
  unfold Counting at h
  cases hs : s.state with
  | idle =>
      simp only [hs] at h
      cases hd : s.control.ctrl.sendDone with
      | false =>
          obtain ⟨hstep,hf⟩ := step_fetch hr hs hd
          rw [hstep,hf]
          exact ⟨n.succ_pos,h⟩
      | true =>
          obtain ⟨hstep,hf⟩ := step_waiting hr (.inl ⟨hs,hd⟩)
          rw [hstep,hf]
          simpa [Counting,refreshed,hs] using h
  | send =>
      simp only [hs] at h
      cases hd : s.control.ctrl.sendDone with
      | false =>
          obtain ⟨hstep,hf⟩ := step_waiting hr (.inr ⟨hs,hd⟩)
          rw [hstep,hf]
          simpa [Counting,refreshed,hs] using h
      | true =>
          obtain ⟨hstep,hf⟩ := step_withdraw hr hs hd
          rw [hstep,hf]
          obtain ⟨hpos,hb⟩ := h
          by_cases hone : s.byteCounter = 1
          · simp only [Counting,hone,ne_eq,not_true_eq_false,if_false,Option.toList_none,
              List.length_nil,Nat.add_zero]
            omega
          · simp only [Counting,hone,ne_eq,not_false_eq_true,if_true,Option.toList_none,
              List.length_nil,Nat.add_zero]
            omega
  | done =>
      simp only [hs] at h
      obtain ⟨hstep,hf⟩ := step_wrap hr hs
      rw [hstep,hf]
      simp [Counting,stringLen,h]

/-- After `n` fetches the controller has accepted `k` characters. -/
inductive Feeding (s : State) (n k : ℕ) : Prop
  | idle : s.state = .idle → s.sendDataValid = false → s.control.ctrl.sendDone = false →
      (position s.control).point ≠ .sendData → n = k → Feeding s n k
  | offered : s.state = .send → s.sendDataValid = true → s.control.ctrl.sendDone = false →
      (position s.control).point ≠ .sendData → n = k+1 → Feeding s n k
  | accepted : s.state = .send → s.sendDataValid = true →
      (position s.control).point = .sendData → n = k →
      (s.control.ctrl.sendDone = false → (position s.control).taken = false) → Feeding s n k
  | released : s.state ≠ .send → s.sendDataValid = false → s.control.ctrl.sendDone = true →
      (position s.control).point = .sendData ∨ (position s.control).point = .done →
      n = k → Feeding s n k

/-- All that the panel has been or will be sent for the characters fetched. -/
structure Tracks (chars : ℕ → BitVec 7) (s : State) (n : ℕ) (l : List Transfer) : Prop where
  stage : Stage s.control
  held : 0 < n → s.sendData.setWidth 7 = chars (n-1)
  placed : ∃ k, Feeding s n k ∧ Placed chars k (position s.control)
    (l ++ (position s.control).owed (glyph (s.sendData.setWidth 7)))

variable {chars : ℕ → BitVec 7} {n k : ℕ} {l : List Transfer}

theorem tracks_idle (h : Tracks chars s n l) (hr : i.reset = false)
    (hchar : ∀ x, fetched s i = some x → x.2.setWidth 7 = chars n)
    (hs : s.state = .idle) (hv : s.sendDataValid = false) (hd : s.control.ctrl.sendDone = false)
    (hp : (position s.control).point ≠ .sendData)
    (hplaced : Placed chars n (position s.control)
      (l ++ (position s.control).owed (glyph (s.sendData.setWidth 7)))) :
    Tracks chars (step s i) (n+(fetched s i).toList.length) (l ++ (latched s i).toList) := by
  have hout := h.stage.outcome (i := controlInput s i) hr
  obtain ⟨hstep,hf⟩ := step_fetch hr hs hd
  have hstage := h.stage.step (i := controlInput s i) hr
  rcases hout.move.unsent hp hd with ⟨hp',hd',hdone⟩ | ⟨hv',-⟩
  · have hplaced' := hplaced.move hout.move (fun hs => absurd hs hp) hdone
    rw [hf]
    refine ⟨hstage,fun _ => ?_,n,?_,?_⟩
    · rw [hstep]
      exact hchar _ hf
    · rw [hstep]
      exact .offered rfl rfl hd' hp' rfl
    · rw [Position.owed_of_ne _ (glyph ((step s i).sendData.setWidth 7)) hp'] at hplaced'
      exact hplaced'
  · rw [controlInput_sendDataValid,hv] at hv'
    contradiction

/-- An edge without a fetch. -/
theorem tracks_kept (h : Tracks chars s n l) (hr : i.reset = false) (hf : fetched s i = none)
    (hsend : (step s i).sendData = s.sendData) (hfeeding : Feeding (step s i) n k)
    (hplaced : Placed chars k (position (step s i).control) (l ++ (latched s i).toList ++
      (position (step s i).control).owed (glyph (s.sendData.setWidth 7)))) :
    Tracks chars (step s i) (n+(fetched s i).toList.length) (l ++ (latched s i).toList) := by
  rw [hf]
  refine ⟨h.stage.step hr,?_,k,hfeeding,?_⟩
  · rw [hsend]
    exact h.held
  · rw [hsend]
    exact hplaced

theorem tracks_offered (h : Tracks chars s n l) (hr : i.reset = false) (hs : s.state = .send)
    (hv : s.sendDataValid = true) (hd : s.control.ctrl.sendDone = false)
    (hp : (position s.control).point ≠ .sendData) (hn : n = k+1)
    (hplaced : Placed chars k (position s.control)
      (l ++ (position s.control).owed (glyph (s.sendData.setWidth 7)))) :
    Tracks chars (step s i) (n+(fetched s i).toList.length) (l ++ (latched s i).toList) := by
  have hout := h.stage.outcome (i := controlInput s i) hr
  obtain ⟨hstep,hf⟩ := step_waiting hr (.inr ⟨hs,hd⟩)
  have hsend : (step s i).sendData = s.sendData := by rw [hstep]; rfl
  have hs' : (step s i).state = .send := by rw [hstep]; exact hs
  have hv' : (step s i).sendDataValid = true := by rw [hstep]; exact hv
  rcases hout.move.unsent hp hd with ⟨hp',hd',hdone⟩ | ⟨-,hdone,htaken,haccept,hnone⟩
  · exact tracks_kept h hr hf hsend (.offered hs' hv' hd' hp' hn)
      (hplaced.move hout.move (fun hs => absurd hs hp) hdone)
  · have hchar : s.sendData.setWidth 7 = chars k := by
      rw [h.held (by omega),hn,Nat.add_sub_cancel]
    have hd' : (position (step s i).control).sendDone = false := by
      rw [step_control,haccept,Position.accept]
      split <;> exact hd
    have htaken' : (position (step s i).control).taken = false := by
      rw [step_control,haccept,Position.accept]
      split <;> exact htaken
    have hl : l ++ (latched s i).toList = l := by
      rw [latched,hnone,Option.toList_none,List.append_nil]
    rw [Position.owed_of_done _ hdone,List.append_nil] at hplaced
    by_cases hcol : (position s.control).columnAddr = 128
    · have hp' : (position (step s i).control).point = .pageAddr := by
        rw [step_control,haccept,Position.accept,if_pos hcol]
      have hplaced' := hplaced.accept_page hdone htaken hcol (glyph (s.sendData.setWidth 7))
      rw [← haccept,← step_control] at hplaced'
      refine tracks_kept h hr hf hsend (.offered hs' hv' hd' (by rw [hp']; decide) hn) ?_
      rw [hl]
      exact hplaced'
    · have hp' : (position (step s i).control).point = .sendData := by
        rw [step_control,haccept,Position.accept,if_neg hcol]
      have hplaced' := hplaced.accept_character hdone htaken hcol
      rw [← haccept,← step_control] at hplaced'
      refine tracks_kept h hr hf hsend (k := k+1) (.accepted hs' hv' hp' hn fun _ => htaken') ?_
      rw [hl,hchar]
      exact hplaced'

theorem tracks_accepted (h : Tracks chars s n l) (hr : i.reset = false) (hs : s.state = .send)
    (hv : s.sendDataValid = true) (hp : (position s.control).point = .sendData) (hn : n = k)
    (ht : s.control.ctrl.sendDone = false → (position s.control).taken = false)
    (hplaced : Placed chars k (position s.control)
      (l ++ (position s.control).owed (glyph (s.sendData.setWidth 7)))) :
    Tracks chars (step s i) (n+(fetched s i).toList.length) (l ++ (latched s i).toList) := by
  have hout := h.stage.outcome (i := controlInput s i) hr
  obtain ⟨hlow,hhigh⟩ := hout.move.sending hp ht
  have hplaced' := hplaced.move hout.move (fun _ => rfl) (fun hdone => by simp [hp] at hdone)
  cases hd : s.control.ctrl.sendDone with
  | false =>
      obtain ⟨hstep,hf⟩ := step_waiting hr (.inr ⟨hs,hd⟩)
      obtain ⟨hp',ht'⟩ := hlow hd
      refine tracks_kept h hr hf (by rw [hstep]; rfl) (.accepted ?_ ?_ hp' hn ht') hplaced'
      · rw [hstep]; exact hs
      · rw [hstep]; exact hv
  | true =>
      obtain ⟨hstep,hf⟩ := step_withdraw hr hs hd
      obtain ⟨hd',hp'⟩ := hhigh hd
      refine tracks_kept h hr hf (by rw [hstep]; rfl) (.released ?_ ?_ hd' hp' hn) hplaced'
      · rw [hstep]
        simp only
        split <;> decide
      · rw [hstep]

theorem tracks_released (h : Tracks chars s n l) (hr : i.reset = false) (hs : s.state ≠ .send)
    (hv : s.sendDataValid = false) (hd : s.control.ctrl.sendDone = true)
    (hp : (position s.control).point = .sendData ∨ (position s.control).point = .done)
    (hn : n = k) (hplaced : Placed chars k (position s.control)
      (l ++ (position s.control).owed (glyph (s.sendData.setWidth 7)))) :
    Tracks chars (step s i) (n+(fetched s i).toList.length) (l ++ (latched s i).toList) := by
  have hout := h.stage.outcome (i := controlInput s i) hr
  have hnext : (step s i).state = .idle ∧ (step s i).sendDataValid = false ∧
      (step s i).sendData = s.sendData ∧ fetched s i = none := by
    cases hst : s.state with
    | idle =>
        obtain ⟨hstep,hf⟩ := step_waiting hr (.inl ⟨hst,hd⟩)
        rw [hstep]
        exact ⟨hst,hv,rfl,hf⟩
    | send => exact absurd hst hs
    | done =>
        obtain ⟨hstep,hf⟩ := step_wrap hr hst
        rw [hstep]
        exact ⟨rfl,rfl,rfl,hf⟩
  obtain ⟨hs',hv',hsend,hf⟩ := hnext
  have hdone : (position s.control).point = .done →
      (position (step s i).control).point = .done :=
    fun hdone => hout.move.resting hdone hv
  have hplaced' := hplaced.move hout.move (fun _ => rfl) hdone
  rcases hp with hp | hp
  · obtain ⟨hd',hp'⟩ := (hout.move.sending hp (by simp [position,hd])).2 hd
    exact tracks_kept h hr hf hsend (.released (by rw [hs']; decide) hv' hd' hp' hn) hplaced'
  · cases hd' : (step s i).control.ctrl.sendDone with
    | true =>
        exact tracks_kept h hr hf hsend
          (.released (by rw [hs']; decide) hv' hd' (.inr (hdone hp)) hn) hplaced'
    | false =>
        exact tracks_kept h hr hf hsend (.idle hs' hv' hd' (by rw [hdone hp]; decide) hn) hplaced'

/-- DONE is not kept waiting. -/
theorem Tracks.fed (h : Tracks chars s n l) (hr : i.reset = false) :
    Fed s.control (controlInput s i) (step s i).sendDataValid := by
  intro hdone
  have hpoint : (position s.control).point = .done := by simp [position,point,hdone]
  obtain ⟨k,hfeeding,-⟩ := h.placed
  rw [controlInput_sendDataValid]
  cases hfeeding with
  | idle hs hv hd =>
      refine ⟨fun _ => hd,fun _ _ => ?_⟩
      rw [(step_fetch hr hs hd).1]
  | offered _ hv hd =>
      refine ⟨fun _ => hd,fun hv' => ?_⟩
      rw [hv] at hv'
      contradiction
  | accepted _ _ hp =>
      rw [hpoint] at hp
      contradiction
  | released _ hv hd =>
      refine ⟨fun hv' => ?_,fun _ hd' => ?_⟩
      · rw [hv] at hv'
        contradiction
      · rw [hd] at hd'
        contradiction

theorem Tracks.step (h : Tracks chars s n l) (hr : i.reset = false)
    (hchar : ∀ x, fetched s i = some x → x.2.setWidth 7 = chars n) :
    Tracks chars (step s i) (n+(fetched s i).toList.length) (l ++ (latched s i).toList) := by
  obtain ⟨k,hfeeding,hplaced⟩ := h.placed
  cases hfeeding with
  | idle hs hv hd hp hn => exact tracks_idle h hr hchar hs hv hd hp (hn ▸ hplaced)
  | offered hs hv hd hp hn => exact tracks_offered h hr hs hv hd hp hn hplaced
  | accepted hs hv hp hn ht => exact tracks_accepted h hr hs hv hp hn ht hplaced
  | released hs hv hd hp hn => exact tracks_released h hr hs hv hd hp hn hplaced

end FpgaTest.Oled
