import FpgaTest.OledRestart

/-!
# The handshake with the client

`sendDone` tells the client that the character it offers has been sent. In
SEND_DATA it is raised in the `else` branch of the acknowledgement instead of the
branch of the last column, so it is high from the second clock of the first column
on. The column is read off `sendData` while it is offered, so a client that goes by
`sendDone` changes the character under the controller.

`accepts` is the edge at which DONE takes a character. There is no other way into
SEND_DATA, and `sendDone` rises in SEND_DATA only.
-/
namespace FpgaTest.OledHandshake
open ClockedMachine CharRom OledControl OledProgram OledStages OledRestart OledPanel

/-- DONE takes the character on offer. -/
def accepts (s : State) (i : Input) : Bool :=
  !i.reset && s.ctrl.state == .done && i.sendDataValid && s.ctrl.columnAddr != 128 &&
    !s.ctrl.sendDone

section Edge
variable {s : State} {i : Input}

theorem accepts_iff : accepts s i = true ↔ i.reset = false ∧ s.ctrl.state = .done ∧
    i.sendDataValid = true ∧ s.ctrl.columnAddr ≠ 128 ∧ s.ctrl.sendDone = false := by
  simp [accepts,and_assoc]

theorem stage_of_done (h : Operating s) (hs : s.ctrl.state = .done) : Stage s := by
  rcases h with h | h
  · exact h
  · cases h with
    | idel hi => simp [hs] at hi
    | delay hd => simp [hs] at hd

theorem ready_of_done (h : Operating s) (hs : s.ctrl.state = .done) :
    s.ctrl.spiLoadData = false ∧ OledSpi.Free s.spi := by
  cases (stage_of_done h hs).phase with
  | ready _ hl hf => exact ⟨hl,hf⟩
  | passing hp => simp [hs,passes] at hp
  | delaying hd => simp [hs] at hd
  | waiting hw => simp [hs] at hw
  | offering ho => simp [hs,offers] at ho
  | serving ho => simp [hs,offers] at ho

/-- SEND_DATA before its first column. -/
structure Opening (s : State) : Prop where
  state : s.ctrl.state = .sendData
  spi : OledSpi.Free s.spi
  byteCounter : s.ctrl.byteCounter = 8
  sendDone : s.ctrl.sendDone = false

theorem Opening.position (h : Opening s) :
    (position s).point = .sendData ∧ (position s).taken = false := by
  simp [OledStages.position,point,h.state,h.spi.state]

theorem opening_of_accepts (h : Operating s) (ha : accepts s i = true) :
    latched s i = none ∧ Opening (step s i) := by
  obtain ⟨hr,hs,hv,hcol,hd⟩ := accepts_iff.mp ha
  obtain ⟨hl,hf⟩ := ready_of_done h hs
  have hctrl := nextCtrl_done (i := i) hr hs
  rw [hv,done_accepted hd] at hctrl
  have hl' : (nextCtrl s i).spiLoadData = false := by rw [hctrl]; exact hl
  obtain ⟨hlatch,hf'⟩ := free_step hr hf hl'
  refine ⟨hlatch,?_,hf',?_,?_⟩
  · rw [step_ctrl,hctrl]
    exact if_neg hcol
  · rw [step_ctrl,hctrl]
  · rw [step_ctrl,hctrl]
    exact hd

theorem point_of_returning (hr : i.reset = false)
    (hs : s.ctrl.state = .delay ∨ s.ctrl.state = .waitSpi)
    (hn : s.ctrl.nextState = .done) : (position (step s i)).point = .done := by
  rcases hs with hs | hs
  · cases hd : s.delay.delayDone <;>
      simp [position,point,nextCtrl_delay hr hs,hd,hn]
  · cases hd : s.spi.doneSend <;>
      simp [position,point,nextCtrl_waitSpi hr hs,hd,hn]

/-- The only way into SEND_DATA. -/
theorem accepts_of_enters (h : Operating s) (hr : i.reset = false)
    (hp : (position s).point ≠ .sendData) (hp' : (position (step s i)).point = .sendData) :
    accepts s i = true := by
  obtain ⟨-,hmove⟩ := h.step_move hr
  generalize hq : position (step s i) = q at hmove hp'
  generalize latched s i = x at hmove
  cases hmove with
  | wait | hold | take => exact absurd hp' hp
  | advance => exact absurd hp' (follow_ne_sendData hp)
  | pass hpass =>
      cases hpoint : (position s).point <;> rw [hpoint] at hpass hp' <;>
        simp [passes,passed] at hpass hp'
  | accept hdone _ hv hd =>
      have hcol : s.ctrl.columnAddr ≠ 128 := by
        intro hcol
        have hcol' : (position s).columnAddr = 128 := hcol
        simp [Position.accept,hcol'] at hp'
      have hs : s.ctrl.state = .done := by
        by_contra hne
        have hreturn : s.ctrl.state = .delay ∨ s.ctrl.state = .waitSpi := by
          cases hs : s.ctrl.state <;> simp_all [position,point]
        have hn : s.ctrl.nextState = .done := by
          rcases hreturn with hs | hs <;> simpa [position,point,hs] using hdone
        rw [← hq,point_of_returning hr hreturn hn] at hp'
        contradiction
      exact accepts_iff.mpr ⟨hr,hs,hv,hcol,hd⟩
  | rest hdone => simp [hdone] at hp'

theorem sending_of_rise (h : Operating s) (hr : i.reset = false) (hd : s.ctrl.sendDone = false)
    (hd' : (step s i).ctrl.sendDone = true) : (position s).point = .sendData := by
  by_contra hp
  obtain ⟨-,hmove⟩ := h.step_move hr
  rcases hmove.unsent hp hd with ⟨-,hlow,-⟩ | ⟨-,-,-,haccept,-⟩
  · exact absurd (hlow.symm.trans hd') (by decide)
  · have hlow : (position (step s i)).sendDone = false := by
      rw [haccept,Position.accept]
      split <;> exact hd
    exact absurd (hlow.symm.trans hd') (by decide)

end Edge

section Runs
variable (input : ℕ → Input)

/-- A character is taken at edge `a`. -/
def accepted (a : ℕ) : Bool := accepts (run step powerUp input a) (input a)

/-- SEND_DATA is there for a character, and no reset has come in between. -/
theorem exists_accepted {k : ℕ}
    (h : (position (run step powerUp input k)).point = .sendData) :
    ∃ a < k, accepted input a = true ∧ ∀ j, a < j → j < k → (input j).reset = false := by
  induction k with
  | zero => simp [run,powerUp,position,point] at h
  | succ k ih =>
      have hop := operating_run input k
      cases hr : (input k).reset with
      | true =>
          have hidel := (position_of_reset (s := run step powerUp input k) hr).1
          rw [run_succ,hidel] at h
          contradiction
      | false =>
          by_cases hp : (position (run step powerUp input k)).point = .sendData
          · obtain ⟨a,ha,hacc,hno⟩ := ih hp
            refine ⟨a,by omega,hacc,fun j hj hjk => ?_⟩
            rcases Nat.lt_succ_iff_lt_or_eq.mp hjk with hlt | rfl
            · exact hno j hj hlt
            · exact hr
          · exact ⟨k,Nat.lt_succ_self k,accepts_of_enters hop hr hp h,fun j hj hjk => by omega⟩

/-- `sendDone` is high for a character that was taken two clocks ago or earlier. -/
theorem accepted_of_sendDone {k : ℕ} (h : (run step powerUp input k).ctrl.sendDone = true) :
    ∃ a, a+2 ≤ k ∧ accepted input a = true ∧ (input (a+1)).reset = false := by
  induction k with
  | zero => contradiction
  | succ k ih =>
      have hop := operating_run input k
      cases hr : (input k).reset with
      | true =>
          have hlow : (run step powerUp input (k+1)).ctrl.sendDone = false :=
            (position_of_reset (s := run step powerUp input k) hr).2.2.1
          rw [hlow] at h
          contradiction
      | false =>
          cases hd : (run step powerUp input k).ctrl.sendDone with
          | true =>
              obtain ⟨a,ha,hrest⟩ := ih hd
              exact ⟨a,by omega,hrest⟩
          | false =>
              obtain ⟨a,ha,hacc,hno⟩ := exists_accepted input (sending_of_rise hop hr hd h)
              refine ⟨a,by omega,hacc,?_⟩
              rcases Nat.lt_or_eq_of_le (show a+1 ≤ k from ha) with hlt | heq
              · exact hno (a+1) (Nat.lt_succ_self a) hlt
              · rw [heq]
                exact hr

theorem sendDone_of_accepted {a : ℕ} (h : accepted input a = true)
    (hr : (input (a+1)).reset = false) :
    accepted input (a+1) = false ∧ (run step powerUp input (a+2)).ctrl.sendDone = true := by
  have hopen : Opening (run step powerUp input (a+1)) :=
    (opening_of_accepts (operating_run input a) h).2
  have hctrl := nextCtrl_offered hr (by rw [hopen.state]; rfl) hopen.spi.doneSend
  constructor
  · rw [accepted,← Bool.not_eq_true,accepts_iff]
    rintro ⟨-,hdone,-⟩
    exact absurd (hopen.state.symm.trans hdone) (by decide)
  · rw [run_succ step powerUp input (a+1),step_ctrl,hctrl,hopen.state]
    simp

variable {input} (hno : ∀ a, accepted input a = false)
include hno

theorem point_of_unaccepted (k : ℕ) : (position (run step powerUp input k)).point ≠ .sendData := by
  intro h
  obtain ⟨a,-,ha,-⟩ := exists_accepted input h
  rw [hno a] at ha
  contradiction

theorem sendDone_of_unaccepted (k : ℕ) : (run step powerUp input k).ctrl.sendDone = false := by
  refine Bool.eq_false_iff.mpr fun h => ?_
  obtain ⟨a,-,ha,-⟩ := accepted_of_sendDone input h
  rw [hno a] at ha
  contradiction

end Runs

/-- One clock of RESET_N, then the character A on offer at every edge. -/
def eager (n : ℕ) : Input := ⟨decide (0 < n),false,65,true⟩

theorem eager_reset {k : ℕ} (h : 0 < k) : (eager k).reset = false := by
  simp [eager,Input.reset,h]

theorem stage_eager : Stage (run step powerUp eager 1) := stage_of_idel rfl rfl ⟨rfl,rfl⟩ rfl rfl

theorem stage_run_eager {k : ℕ} (hk : 1 ≤ k) : Stage (run step powerUp eager k) :=
  run_invariant step powerUp eager (fun _ => Stage) hk stage_eager
    fun _ hj _ h => h.step (eager_reset hj)

/-- Before the first character there are only the commands and a page address to
send. -/
theorem program_of_unaccepted (hno : ∀ a, accepted eager a = false) (len : ℕ) :
    emitted step powerUp eager latched 1 len ++
      (position (run step powerUp eager (1+len))).owed 0 = commandsFrom 0 0 := by
  refine (emitted_invariant step powerUp eager latched (fun s l => (position s).columnAddr = 0 ∧
    l ++ (position s).owed 0 = commandsFrom 0 0) len ⟨rfl,rfl⟩ ?_).2
  intro k l hk _ hp
  obtain ⟨hcol,hl⟩ := hp
  have hpoint := point_of_unaccepted hno k
  have hmove := ((stage_run_eager hk).outcome (eager_reset hk)).move
  have hdone : (position (run step powerUp eager k)).point = .done →
      (position (run step powerUp eager (k+1))).point = .done := by
    rcases hmove.unsent hpoint (sendDone_of_unaccepted hno k) with ⟨-,-,h⟩ | ⟨-,-,-,h,-⟩
    · exact h
    · refine absurd ?_ (point_of_unaccepted hno (k+1))
      rw [run_succ,h,Position.accept,hcol]
      rfl
  refine ⟨hmove.columnAddr_zero hpoint hcol,?_⟩
  rw [List.append_assoc,owed_move hmove (fun h => absurd h hpoint) (fun h => absurd h hpoint)
    hdone,hl]

/-- Fifteen bytes are not enough for a run without end, so a character is taken. -/
theorem eager_accepted : ∃ a, 0 < a ∧ accepted eager a = true := by
  by_contra hnone
  have hno : ∀ a, accepted eager a = false := by
    intro a
    rcases Nat.eq_zero_or_pos a with rfl | ha
    · rfl
    · exact Bool.eq_false_iff.mpr fun h => hnone ⟨a,ha,h⟩
  have hfed : ∀ k, Fed (run step powerUp eager k) (eager k) true :=
    fun k _ => ⟨fun _ => sendDone_of_unaccepted hno k,by simp [eager]⟩
  obtain ⟨len,hlen⟩ : ∃ len, 16 ≤ (emitted step powerUp eager latched 1 len).length :=
    emitted_unbounded (fun s => rank s true)
      (fun k hk hn => ((stage_run_eager hk).outcome (eager_reset hk)).rank hn true (hfed k)) 16
  have hlength := congrArg List.length (program_of_unaccepted hno len)
  simp [commandsFrom,initCommands,header] at hlength
  omega

section Meaning
variable (input : ℕ → Input)

/-- The bytes that the panel receives from edge `a` up to edge `k`. -/
def receivedFrom (a k : ℕ) : List (List Bool × BitVec 8) :=
  received (emitted step powerUp input sample a (k-a))

/-- If `sendDone` is high, the panel has the glyph of the character taken last. -/
def ShiftedOut (k : ℕ) : Prop :=
  (run step powerUp input k).ctrl.sendDone = true →
    ∀ a < k, accepted input a = true → (∀ b, a < b → b < k → accepted input b = false) →
      (columns (glyph (input a).sendData) 8).map steady <+: receivedFrom input a k

/-- A client that keeps its character from the edge at which it is taken until it
sees `sendDone` gets the columns of this character. -/
def Kept (k : ℕ) : Prop :=
  ∀ a t c, a < t → t ≤ k → accepted input a = true →
    (run step powerUp input t).ctrl.sendDone = true →
    (∀ j, a < j → j < t → (run step powerUp input j).ctrl.sendDone = false) →
    (∀ j, a ≤ j → j < t → (input j).sendData = c) →
    (∀ j, a < j → j < k → accepted input j = false ∧ (input j).reset = false) →
      (receivedFrom input a k).take 8 <+: (columns (glyph c) 8).map steady

theorem receivedFrom_two (a : ℕ) : receivedFrom input a (a+2) = [] := by
  have hlen : (emitted step powerUp input sample a (a+2-a)).length < 8 := by
    rw [Nat.add_sub_cancel_left,emitted,emitted,emitted,List.length_append,List.length_append]
    have h := fun k => Option.length_toList_le (o := sample (run step powerUp input k) (input k))
    have h0 := h (a+0)
    have h1 := h (a+1)
    simp only [List.length_nil]
    omega
  rw [receivedFrom,received,BlockFraming.blocks_of_lt hlen]
  rfl

theorem not_shiftedOut {a : ℕ} (ha : accepted input a = true)
    (hr : (input (a+1)).reset = false) : ¬ ShiftedOut input (a+2) := by
  intro h
  obtain ⟨hnext,hd⟩ := sendDone_of_accepted input ha hr
  have hcolumns := h hd a (by omega) ha (fun b hb hb' => by
    obtain rfl : b = a+1 := by omega
    exact hnext)
  rw [receivedFrom_two,List.prefix_nil] at hcolumns
  simp [columns] at hcolumns

end Meaning

theorem first_column {i : Input} {p p' : Position} {x : Option Transfer} (h : Move i p p' x)
    (hp : p.point = .sendData) (ht : p.taken = false) (hb : p.byteCounter = 8)
    (bitMap : BitVec 64) :
    p'.point = .sendData ∧ p'.byteCounter = 8 ∧
      ∃ y, x.toList ++ p'.owed bitMap = y::columns bitMap 7 := by
  cases h with
  | wait | hold => exact ⟨hp,hb,_,owed_of_sendData bitMap hp ht hb⟩
  | take =>
      refine ⟨hp,hb,p.transfer (glyph i.sendData),?_⟩
      simp [Position.owed,Position.toGo,hp,hb,columns]
  | advance _ ht' => simp [ht] at ht'
  | pass hpass => simp [hp,passes] at hpass
  | accept hdone | rest hdone => simp [hp] at hdone

section Switch
variable (input : ℕ → Input)

theorem clockGated_run (n : ℕ) : ClockGated (run step powerUp input n).spi := by
  induction n with
  | zero =>
      intro h
      contradiction
  | succ n ih =>
      rw [run_succ,step_spi]
      cases hr : (input n).resetN with
      | true => exact ih.step (sound_of_operating (operating_run input n)) hr
      | false =>
          cases ht : (run step powerUp input n).spi.div.falls with
          | true =>
              rw [OledSpi.step_reset ht hr]
              intro h
              contradiction
          | false =>
              rw [OledSpi.step_of_not_falls _ ht]
              exact ih

section
variable {input} {m : ℕ} {c : BitVec 7}
  (hstage : ∀ k, m ≤ k → Stage (run step powerUp input k))
  (hr : ∀ k, m ≤ k → (input k).reset = false) (hc : ∀ k, m ≤ k → (input k).sendData = c)
  (hpoint : (position (run step powerUp input m)).point = .sendData)
  (hcount : (position (run step powerUp input m)).Counted)
include hstage hr hc hcount

/-- As long as SEND_DATA is kept, the bytes taken and those owed make up the glyph. -/
theorem owed_of_sending (len : ℕ) (hsending : ∀ k, m ≤ k → k < m+len →
      (position (run step powerUp input k)).point = .sendData) :
    emitted step powerUp input latched m len ++
        (position (run step powerUp input (m+len))).owed (glyph c) =
      (position (run step powerUp input m)).owed (glyph c) := by
  refine (emitted_invariant step powerUp input latched (fun s l => (position s).Counted ∧
    l ++ (position s).owed (glyph c) =
      (position (run step powerUp input m)).owed (glyph c)) len ⟨hcount,rfl⟩ ?_).2
  intro k l hk hkl hp
  have hs := hsending k hk hkl
  have hmove := ((hstage k hk).outcome (hr k hk)).move
  refine ⟨hmove.counted hs hp.1,?_⟩
  rw [List.append_assoc,← hp.2]
  exact congrArg (l ++ ·) (owed_move hmove hp.1 (fun _ => by rw [hc k hk])
    (fun hdone => absurd (hs.symm.trans hdone) (by decide)))

/-- SEND_DATA is left: it has at most eight bytes to send. -/
theorem exists_left : ∃ len, (position (run step powerUp input (m+len))).point ≠ .sendData := by
  by_contra hnone
  push Not at hnone
  have hsending : ∀ k, m ≤ k → (position (run step powerUp input k)).point = .sendData := by
    intro k hk
    obtain ⟨len,rfl⟩ := Nat.exists_eq_add_of_le hk
    exact hnone len
  have hbusy : ∀ k, m ≤ k → (run step powerUp input k).ctrl.state ≠ .done := by
    intro k hk hs
    have hpoint := hsending k hk
    simp [position,point,hs] at hpoint
  obtain ⟨len,hlen⟩ : ∃ len, (((position (run step powerUp input m)).owed (glyph c)).length + 1) ≤
      (emitted step powerUp input latched m len).length := by
    refine emitted_unbounded (fun s => rank s true) (fun k hk hn => ?_) _
    rw [rank_of_ne_done true (input k).sendDataValid (hbusy k hk)]
    exact ((hstage k hk).outcome (hr k hk)).rank hn true fun hs => absurd hs (hbusy k hk)
  have hlength := congrArg List.length
    (owed_of_sending hstage hr hc hcount len (fun k hk _ => hsending k hk))
  rw [List.length_append] at hlength
  omega

include hpoint in
theorem columns_of_sendData : ∃ len, (∀ k, m ≤ k → k < m+len →
      (position (run step powerUp input k)).point = .sendData) ∧
    emitted step powerUp input latched m len =
      (position (run step powerUp input m)).owed (glyph c) := by
  classical
  have hex := exists_left hstage hr hc hcount
  have hsending : ∀ k, m ≤ k → k < m+Nat.find hex →
      (position (run step powerUp input k)).point = .sendData := by
    intro k hk hkm
    obtain ⟨len,rfl⟩ := Nat.exists_eq_add_of_le hk
    exact not_not.mp (Nat.find_min hex (by omega))
  refine ⟨Nat.find hex,hsending,?_⟩
  have hleft := Nat.find_spec hex
  have hdone : (position (run step powerUp input (m+Nat.find hex))).point = .done := by
    cases hlen : Nat.find hex with
    | zero =>
        rw [hlen] at hleft
        exact absurd hpoint hleft
    | succ len =>
        rw [hlen] at hleft hsending
        have hmove := ((hstage (m+len) (by omega)).outcome (hr (m+len) (by omega))).move
        exact (hmove.point_of_sendData (hsending (m+len) (by omega) (by omega))).resolve_left hleft
  have howed := owed_of_sending hstage hr hc hcount _ hsending
  rwa [Position.owed_of_done _ hdone,List.append_nil] at howed

end

variable {input} {a : ℕ} (ha : accepted input a = true)
  (hr : ∀ k, a < k → (input k).reset = false)
include ha hr

theorem stage_of_accepted {k : ℕ} (hk : a ≤ k) : Stage (run step powerUp input k) := by
  obtain ⟨hra,hs,-⟩ := accepts_iff.mp ha
  have hstage := stage_of_done (operating_run input a) hs
  refine run_invariant step powerUp input (fun _ => Stage) hk hstage ?_
  intro j hj _ h
  rcases Nat.eq_or_lt_of_le hj with rfl | hlt
  · exact h.step hra
  · exact h.step (hr j hlt)

/-- The samples from the acceptance on. -/
theorem sampled_of_accepted (len : ℕ) :
    emitted step powerUp input sample a len ++ unsampled (run step powerUp input (a+len)) =
      (emitted step powerUp input latched a len).flatMap wire := by
  obtain ⟨hra,hs,-⟩ := accepts_iff.mp ha
  have hstage := fun k hk => stage_of_accepted ha hr (k := k) hk
  have hreset : ∀ k, a ≤ k → (input k).reset = false := by
    intro k hk
    rcases Nat.eq_or_lt_of_le hk with rfl | hlt
    · exact hra
    · exact hr k hlt
  have hempty : unsampled (run step powerUp input a) = [] := by
    have hf := (ready_of_done (.inl (hstage a le_rfl)) hs).2
    rw [unsampled,pending_eq_nil (clockGated_run input a) (.inl hf.state)
      (doneSend_of_phase (hstage a le_rfl).phase)]
    rfl
  have hrun := emitted_invariant_pair step powerUp input sample latched
    (fun s l l' => l ++ unsampled s = l'.flatMap wire) (m := a) len (by simp [hempty]) ?_
  · exact hrun
  · intro k hk _ hp
    rw [List.append_assoc,unsampled_step (hstage k hk) (clockGated_run input k) (hreset k hk),
      ← List.append_assoc,hp,List.flatMap_append]

theorem receivedFrom_take (len n : ℕ)
    (hn : n+2 ≤ (emitted step powerUp input latched a len).length) :
    n ≤ (receivedFrom input a (a+len)).length ∧ (receivedFrom input a (a+len)).take n =
      ((emitted step powerUp input latched a len).map steady).take n := by
  have hsampled := sampled_of_accepted ha hr len
  have hlen := length_received hsampled (length_unsampled_le _)
  rw [receivedFrom,Nat.add_sub_cancel_left]
  refine ⟨by omega,((received_of_samples hsampled).take n).eq_of_length ?_⟩
  rw [List.length_take,List.length_take,List.length_map]
  omega

/-- The eight columns of a character that is replaced when `sendDone` rises: all but
the first are those of the new one. -/
theorem latched_of_accepted {c : BitVec 7} (hc : ∀ k, a+2 ≤ k → (input k).sendData = c) :
    ∃ len, (∀ j, a < j → j < a+2+len → (position (run step powerUp input j)).point = .sendData) ∧
      ∃ y, emitted step powerUp input latched a (2+len) = y::columns (glyph c) 7 := by
  have hstage : ∀ k, a ≤ k → Stage (run step powerUp input k) :=
    fun k hk => stage_of_accepted ha hr hk
  obtain ⟨hquiet,hopen⟩ := opening_of_accepts (operating_run input a) ha
  obtain ⟨hpoint,hcounter,y,hy⟩ := first_column
    ((hstage (a+1) (by omega)).outcome (hr (a+1) (by omega))).move hopen.position.1
    hopen.position.2 hopen.byteCounter (glyph c)
  have hcount : (position (run step powerUp input (a+2))).Counted := by
    intro _
    rw [run_succ,hcounter]
    decide
  obtain ⟨len,hsending,hlatched⟩ := columns_of_sendData (fun k hk => hstage k (by omega))
    (fun k hk => hr k (by omega)) hc hpoint hcount
  refine ⟨len,?_,y,?_⟩
  · intro j hj hjl
    rcases Nat.lt_or_ge j (a+2) with hlt | hge
    · obtain rfl : j = a+1 := by omega
      exact hopen.position.1
    · exact hsending j hge hjl
  · rw [emitted_add,hlatched,emitted,emitted,emitted,Nat.add_zero,hquiet]
    exact hy

end Switch

/-- Like `eager`, but from edge `t` on with the character B. -/
def switching (t n : ℕ) : Input := ⟨decide (0 < n),false,if n < t then 65 else 66,true⟩

theorem switching_accepted {a : ℕ} (h : accepted eager a = true) :
    accepted (switching (a+2)) a = true := by
  have hsame : ∀ k < a+2, eager k = switching (a+2) k := by
    intro k hk
    simp [eager,switching,hk]
  rw [accepted,← hsame a (by omega),← run_congr step powerUp fun k hk => hsame k (by omega)]
  exact h

/-- The second column is that of the wrong character. -/
theorem not_kept {a : ℕ} (ha : 0 < a) (h : accepted eager a = true) :
    ∃ k, ¬ Kept (switching (a+2)) k := by
  have hacc := switching_accepted h
  have hr : ∀ k, a < k → (switching (a+2) k).reset = false := by
    intro k hk
    simp [switching,Input.reset,ha.trans hk]
  obtain ⟨len,hsending,y,hlatched⟩ := latched_of_accepted hacc hr (c := 66) (by
    intro k hk
    simp [switching,Nat.not_lt.mpr hk])
  have hopen := (opening_of_accepts (operating_run (switching (a+2)) a) hacc).2
  refine ⟨a+2+len,fun hkept => ?_⟩
  have hcolumns := hkept a (a+2) 65 (by omega) (by omega) hacc
    (sendDone_of_accepted _ hacc (hr (a+1) (by omega))).2 ?_ ?_ ?_
  · obtain ⟨hlen,hnew⟩ := receivedFrom_take hacc hr (2+len) 2
      (by rw [hlatched]; simp [columns])
    rw [Nat.add_assoc] at hcolumns
    have hold := (hcolumns.take 2).eq_of_length (by
      simp only [List.length_take,List.length_map,columns,List.length_cons,List.length_nil]
      omega)
    rw [List.take_take,Nat.min_eq_left (by decide),hnew,hlatched] at hold
    have hcolumn : column (glyph 66) 7 = column (glyph 65) 7 := by
      simpa [columns,steady] using (List.cons.inj hold).2
    exact absurd hcolumn (by decide)
  · intro j hj hjt
    obtain rfl : j = a+1 := by omega
    exact hopen.sendDone
  · intro j _ hjt
    simp [switching,hjt]
  · intro j hj hjk
    refine ⟨?_,hr j hj⟩
    rw [accepted,← Bool.not_eq_true,accepts_iff]
    rintro ⟨-,hs,-⟩
    have hpoint := hsending j hj hjk
    simp [position,point,hs] at hpoint

/-- `sendDone` means what it says as long as no character is taken. Every character
that is taken breaks it two clocks later, unless a reset comes in between. -/
theorem sendDone_means_done_iff (input : ℕ → Input) (n : ℕ) :
    (∀ k ≤ n, ShiftedOut input k ∧ Kept input k) ↔
      ∀ a, a+2 ≤ n → accepted input a = true → (input (a+1)).reset = true := by
  constructor
  · intro h a ha hacc
    by_contra hr
    exact not_shiftedOut input hacc (Bool.eq_false_iff.mpr hr) (h (a+2) ha).1
  · intro h
    have hlow : ∀ k ≤ n, (run step powerUp input k).ctrl.sendDone ≠ true := by
      intro k hk hd
      obtain ⟨a,ha,hacc,hr⟩ := accepted_of_sendDone input hd
      rw [h a (by omega) hacc] at hr
      contradiction
    intro k hk
    refine ⟨fun hd => absurd hd (hlow k hk),?_⟩
    intro a t c _ ht _ hd
    exact absurd hd (hlow t (ht.trans hk))

/-- The first character of a client that always has one on offer: `sendDone` is high
before a byte of it is out, and a client that then offers the next one spoils it. -/
theorem sendDone_means_done_eager :
    (∃ k, ¬ ShiftedOut eager k) ∧ ∃ t k, ¬ Kept (switching t) k := by
  obtain ⟨a,ha,hacc⟩ := eager_accepted
  exact ⟨⟨a+2,not_shiftedOut eager hacc (eager_reset a.succ_pos)⟩,a+2,not_kept ha hacc⟩

end FpgaTest.OledHandshake
