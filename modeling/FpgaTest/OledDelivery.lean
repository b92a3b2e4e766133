import FpgaTest.Oled

/-!
# Every character is delivered

From the end of a RESET_N pulse of ten clocks on, the display receives the
initialisation commands and then one page after the other. The pulse contains a
falling edge of the divided clock and frees the engine; what the registers held
before it does not matter. The feeder starts over at the first character of the
string and the controller at page 0, and the two stay in step from there on.
-/
namespace FpgaTest.OledDelivery
open ClockedMachine ClockDivider CharRom Oled OledProgram OledStages OledPanel

/-- The registers that the first clock of a reset clears. -/
structure Cleared (s : State) : Prop where
  state : s.state = .idle
  byteCounter : s.byteCounter = 64
  valid : s.sendDataValid = false
  ctrl : s.control.ctrl.state = .idel
  load : s.control.ctrl.spiLoadData = false
  startDelay : s.control.ctrl.startDelay = false
  sendDone : s.control.ctrl.sendDone = false
  page : s.control.ctrl.currPage = 0
  column : s.control.ctrl.columnAddr = 0

/-- The engine after a falling edge of the divided clock in reset. -/
structure Silenced (s : OledSpi.State) : Prop where
  free : OledSpi.Free s
  ce : s.ce = false

variable {s : State} {i : Input}

theorem cleared_of_reset (hr : i.reset = true) : Cleared (step s i) := by
  have hc : (controlInput s i).reset = true := hr
  constructor <;>
    simp [step,feed,hr,stringLen,OledControl.nextCtrl,OledControl.Controller.step,hc]

theorem silenced_step (hr : i.resetN = false)
    (h : Silenced s.control.spi ∨ s.control.spi.div.falls = true) :
    Silenced (step s i).control.spi := by
  have hr' : (OledControl.spiInput s.control (controlInput s i)).resetN = false := hr
  rw [step_control,OledControl.step_spi]
  cases ht : s.control.spi.div.falls with
  | true =>
      rw [OledSpi.step_reset ht hr']
      exact ⟨⟨rfl,rfl⟩,rfl⟩
  | false =>
      rw [OledSpi.step_of_not_falls _ ht]
      rcases h with h | h
      · exact ⟨⟨h.free.state,h.free.doneSend⟩,h.ce⟩
      · rw [h] at ht
        contradiction

variable {input : ℕ → Input} {m : ℕ}

theorem silenced_of_pulse (hm : 10 ≤ m) (hreset : ∀ k < m, (input k).resetN = false) :
    Silenced (run step s input m).control.spi := by
  refine run_countdown step s input (fun s => Silenced s.control.spi)
    (fun s => s.control.spi.div.toFall) (Nat.zero_le m) (fun s => s.control.spi.div.toFall_pos)
    ((Divider.toFall_le _).trans hm)
    (fun k _ hk hp => silenced_step (hreset k hk) (.inl hp)) ?_
  intro k _ hk
  cases ht : (run step s input k).control.spi.div.falls with
  | true => exact .inl (silenced_step (hreset k hk) (.inr ht))
  | false => exact .inr (Divider.toFall_step_of_not_falls ht)

theorem delay_of_cleared (h : Cleared s) : (step s i).control.delay = ⟨0,false⟩ := by
  rw [step_control,OledControl.step_delay,h.startDelay,DelayGen.step_stopped]

/-- What a RESET_N pulse leaves behind. -/
theorem tracks_of_pulse (chars : ℕ → BitVec 7) (hm : 10 ≤ m)
    (hreset : ∀ k < m, (input k).resetN = false) :
    Tracks chars (run step s input m) 0 [] ∧ Counting (run step s input m) 0 ∧
      ClockGated (run step s input m).control.spi ∧
      pending (run step s input m).control.spi = [] := by
  have hr : ∀ k < m, (input k).reset = true := by
    intro k hk
    simp [Input.reset,hreset k hk]
  obtain ⟨a,rfl⟩ : ∃ a, m = a+2 := ⟨m-2,by omega⟩
  have hbefore : Cleared (run step s input (a+1)) := cleared_of_reset (hr a (by omega))
  have hclear : Cleared (run step s input (a+2)) := cleared_of_reset (hr (a+1) (by omega))
  have hdelay : (run step s input (a+2)).control.delay = ⟨0,false⟩ := delay_of_cleared hbefore
  have hspi := silenced_of_pulse (s := s) hm hreset
  generalize run step s input (a+2) = t at *
  have hpos : position t.control = ⟨.idel,false,0,0,t.control.ctrl.byteCounter,false⟩ := by
    simp [position,point,hclear.ctrl,offers,hclear.page,hclear.column,hclear.sendDone]
  refine ⟨⟨?_,?_,0,?_,?_⟩,?_,?_,?_⟩
  · exact stage_of_idel hclear.ctrl hclear.load hspi.free hclear.startDelay (by rw [hdelay])
  · intro h
    omega
  · exact .idle hclear.state hclear.valid hclear.sendDone (by simp [hpos]) rfl
  · rw [hpos]
    exact .opening rfl rfl rfl rfl
  · simp [Counting,hclear.state,hclear.byteCounter]
  · intro h
    rw [hspi.ce] at h
    contradiction
  · simp [pending,shown,unshifted,hspi.ce,hspi.free.state]

theorem length_columns (bitMap : BitVec 64) (k : ℕ) : (columns bitMap k).length = k := by
  induction k with
  | zero => rfl
  | succ k ih => rw [columns,List.length_cons,ih]

theorem length_opener_le (k : ℕ) : (opener k).length ≤ 4 := by
  unfold opener
  split <;> simp [header]

theorem length_written_le (chars : ℕ → BitVec 7) (k : ℕ) :
    (written chars k).length ≤ 11 + 12*k := by
  induction k with
  | zero => simp [written,initCommands]
  | succ k ih =>
      have := length_opener_le k
      rw [written,List.length_append,List.length_append,length_columns]
      omega

theorem bytes_of_tracks {s : State} {chars : ℕ → BitVec 7} {n : ℕ} {l : List Transfer}
    (h : Tracks chars s n l) : ∃ k ≤ n, l <+: written chars k ++ opener k := by
  obtain ⟨k,hfeeding,hplaced⟩ := h.placed
  have hk : k ≤ n := by cases hfeeding <;> omega
  have hl := List.prefix_append l
    ((position s.control).owed (glyph (s.sendData.setWidth 7)))
  refine ⟨k,hk,?_⟩
  generalize l ++ _ = total at hplaced hl
  cases hplaced with
  | opening | opened => exact hl
  | sending | sent => exact hl.trans (List.prefix_append _ _)

/-- The characters as the controller addresses the character generator with them. -/
def chars (c : ℕ → ℕ × BitVec 8) (j : ℕ) : BitVec 7 := (c j).2.setWidth 7

section
variable {c : ℕ → ℕ × BitVec 8} (hm : 10 ≤ m) (hreset : ∀ k < m, (input k).resetN = false)
  (hrun : ∀ k, m ≤ k → (input k).reset = false) (hc : Enumerates step s input fetched m c)
include hm hreset hrun

include hc in
theorem tracks_run (len : ℕ) :
    Tracks (chars c) (run step s input (m+len)) (emitted step s input fetched m len).length
        (emitted step s input latched m len) ∧
      Counting (run step s input (m+len)) (emitted step s input fetched m len).length := by
  obtain ⟨htracks,hcounting,-⟩ := tracks_of_pulse (s := s) (chars c) hm hreset
  refine emitted_invariant_pair step s input fetched latched
    (fun s l l' => Tracks (chars c) s l.length l' ∧ Counting s l.length) len
    ⟨htracks,hcounting⟩ ?_
  intro k hk _ hp
  obtain ⟨htracks,hcounting⟩ := hp
  rw [List.length_append]
  refine ⟨htracks.step (hrun k hk) ?_,hcounting.step (hrun k hk)⟩
  intro x hx
  have hk' : m+(k-m) = k := by omega
  rw [← hk'] at hx
  rw [chars,hc.next hx]

include hc in
theorem latched_unbounded (n : ℕ) :
    ∃ len, n ≤ (emitted step s input latched m len).length := by
  refine emitted_unbounded (fun s => rank s.control s.sendDataValid) ?_ n
  intro k hk hnone
  obtain ⟨htracks,-⟩ := tracks_run hm hreset hrun hc (k-m)
  have hk' : m+(k-m) = k := by omega
  rw [hk'] at htracks
  have hr : (controlInput (run step s input k) (input k)).reset = false := hrun k hk
  exact (htracks.stage.outcome hr).rank hnone _ (htracks.fed (hrun k hk))

include hc in
theorem fetched_unbounded (n : ℕ) :
    ∃ len, n ≤ (emitted step s input fetched m len).length := by
  obtain ⟨len,hlen⟩ := latched_unbounded hm hreset hrun hc (15+12*n)
  obtain ⟨k,hk,hbytes⟩ := bytes_of_tracks (tracks_run hm hreset hrun hc len).1
  have hle := hbytes.length_le
  have hwritten := length_written_le (chars c) k
  have hopener := length_opener_le k
  rw [List.length_append] at hle
  exact ⟨len,by omega⟩

end

/-- Page number `p`: its address and the glyphs of sixteen characters. -/
def page (chars : ℕ → BitVec 7) (p : ℕ) : List Transfer :=
  header (BitVec.ofNat 2 p) ++
    (List.range 16).flatMap fun j => columns (glyph (chars (16*p+j))) 8

/-- Power-up; only the divider of the engine has declared start values. -/
def powerUp : State :=
  ⟨.idle,0,false,0,[],⟨⟨.idel,.idel,false,false,false,false,false,0,false,0,false,0,0⟩,
    ⟨.initial 4,0,0,.idle,false,false,false⟩,⟨0,false⟩⟩⟩

/-- Ten clocks of RESET_N, then the given data without end. -/
def started (data : ℕ → BitVec 32) (n : ℕ) : Input := ⟨decide (10 ≤ n),false,data n⟩

theorem started_resetN (data : ℕ → BitVec 32) {k : ℕ} (h : k < 10) :
    (started data k).resetN = false := by
  simp only [started,decide_eq_false_iff_not]
  omega

theorem started_reset (data : ℕ → BitVec 32) {k : ℕ} (h : 10 ≤ k) :
    (started data k).reset = false := by
  simp [started,Input.reset,h]

end FpgaTest.OledDelivery
