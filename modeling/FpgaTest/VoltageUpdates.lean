import FpgaTest.DacProgress
import FpgaTest.DacSerial

/-!
# Voltage updates from the command handler

The SetVolt handler writes the code to one GPIO register, raises `load_data`
through the other, sleeps for ten microseconds and drops it again. Nothing tells
it whether the DAC controller is ready. A frame takes more than twice the length
of that pulse, so an update can lie entirely inside the frame of the one before.

The model composes the waveform of any list of SetVolt commands with the
controller, the engine and the receiver at the pins. An update reaches the DAC
if its pulse, or a request still open, meets the engine in IDLE.
-/
namespace FpgaTest.VoltageUpdates
open ClockedMachine ClockDivider Cn0531 DacProgress DacSerial

/-- The controller with the DAC at its pins. -/
structure Bench where
  dac : Cn0531.State
  rx : Receiver
  deriving DecidableEq, Repr

namespace Bench

def step (b : Bench) (i : Input) : Bench where
  dac := Cn0531.step b.dac i
  rx := b.rx.step (pins b.dac.spi) (pins (Cn0531.step b.dac i).spi)

@[simp] theorem step_dac (b : Bench) (i : Input) : (b.step i).dac = Cn0531.step b.dac i := rfl

theorem run_dac (b : Bench) (input : ℕ → Input) (n : ℕ) :
    (run step b input n).dac = run Cn0531.step b.dac input n :=
  run_proj Bench.dac step_dac b input n

end Bench

/-- One SetVolt command: the clocks from writing the code to raising `load_data`,
the length of the pulse, and the clocks up to the next command. -/
structure SetVolt where
  code : BitVec 20
  lead : ℕ
  hold : ℕ
  gap : ℕ
  hold_ge : 1000 ≤ hold

namespace SetVolt

/-- The controller's inputs in the clocks of the command. -/
def input (c : SetVolt) (k : ℕ) : Input :=
  ⟨true,false,decide (c.lead ≤ k ∧ k < c.lead+c.hold),c.code⟩

def length (c : SetVolt) : ℕ := c.lead+c.hold+c.gap

@[simp] theorem input_reset (c : SetVolt) (k : ℕ) : (c.input k).reset = false := rfl

end SetVolt

/-- The bench after a list of commands. -/
def process (b : Bench) (cs : List SetVolt) : Bench :=
  cs.foldl (fun b c => run Bench.step b c.input c.length) b

theorem process_cons (b : Bench) (c : SetVolt) (cs : List SetVolt) :
    process b (c::cs) = process (run Bench.step b c.input c.length) cs := rfl

theorem process_concat (b : Bench) (cs : List SetVolt) (c : SetVolt) :
    process b (cs ++ [c]) = run Bench.step (process b cs) c.input c.length := by
  simp [process]

/-- Reached after a RESET_N pulse of at least 100 clocks, without a later reset,
with the controller in IDLE. -/
def Initialised (b : Bench) : Prop :=
  ∃ (start : Bench) (input : ℕ → Input) (m n : ℕ), 100 ≤ m ∧ m ≤ n ∧
    (∀ k < m, (input k).resetN = false) ∧ (∀ k, m ≤ k → k < n → (input k).reset = false) ∧
    b = run Bench.step start input n ∧ b.dac.ctrl.state = .idle

/-- Controller and engine are both in IDLE. -/
structure Quiet (b : Bench) : Prop where
  ctrl : b.dac.ctrl.state = .idle
  spi : b.dac.spi.state = .idle

/-- In some clock of the command the engine is in IDLE while `load_data` is high
or the controller has a request open. -/
def Served (b : Bench) (c : SetVolt) : Prop :=
  ∃ k < c.length, (run Bench.step b c.input k).dac.spi.state = .idle ∧
    ((run Bench.step b c.input k).dac.ctrl.state = .send ∨ (c.input k).loadData = true)

/-- The last word latched by the engine is `w`. -/
def Sends (w : BitVec 24) (b : Bench) : Prop := Transmits w b.dac.spi b.rx

structure Ready (b : Bench) : Prop where
  framed : Framed b.dac.spi
  paired : Paired b.dac
  state : b.dac.ctrl.state = .idle ∨ b.dac.ctrl.state = .send

variable {b : Bench} {i : Input}

theorem sends_of_latched {w : BitVec 24} (h : latched b.dac i = some w) : Sends w (b.step i) :=
  transmits_of_latched h

theorem Sends.step {w : BitVec 24} (h : Sends w b) (hf : Framed b.dac.spi)
    (hr : i.reset = false) (hn : latched b.dac i = none) : Sends w (b.step i) :=
  Transmits.step h hf (Input.resetN_of_not_reset hr) hn

theorem Sends.accepted {w : BitVec 24} (h : Sends w b) (hs : b.dac.spi.state = .idle) :
    b.rx.words.getLast? = some w :=
  Transmits.accepted h (by simp [inFlight,hs])

theorem Ready.free (h : Ready b) (hs : b.dac.spi.state = .idle) : DacSpi.Free b.dac.spi :=
  ⟨hs,h.framed.spiDone_low (by simp [hs])⟩

theorem Ready.resting (h : Ready b) (hq : Quiet b) : Resting .idle b.dac := by
  cases h.paired with
  | waiting _ hl _ => exact ⟨hq.ctrl,hl,h.free hq.spi⟩
  | offering hne _ | serving hne _ => exact absurd hq.ctrl hne.2

theorem Ready.step (h : Ready b) (hr : i.reset = false) : Ready (b.step i) := by
  refine ⟨h.framed.step _,h.paired.step hr,?_⟩
  rw [Bench.step_dac,step_ctrl]
  rcases h.state with hs | hs
  · rw [nextCtrl_idle hr hs]
    cases i.loadData
    · exact .inl rfl
    · exact .inr rfl
  · have hq := request_send hs i.data
    cases hd : b.dac.spi.spiDone with
    | false => exact .inr ((nextCtrl_offered hr hq hd).1.trans hs)
    | true => exact .inl (nextCtrl_acknowledged hr hq hd).1

theorem Ready.run (h : Ready b) (input : ℕ → Input) (n : ℕ)
    (hr : ∀ k < n, (input k).reset = false) : Ready (run Bench.step b input n) := by
  apply run_invariant _ _ _ (fun _ => Ready) (Nat.zero_le n) h
  intro k _ hk hp
  exact hp.step (hr k hk)

theorem Ready.process (h : Ready b) (cs : List SetVolt) : Ready (process b cs) := by
  induction cs generalizing b with
  | nil => exact h
  | cons c cs ih => exact ih (h.run c.input c.length (fun k _ => c.input_reset k))

theorem exists_sends_step (hf : Framed b.dac.spi) (hr : i.reset = false) (h : ∃ w, Sends w b) :
    ∃ w, Sends w (b.step i) := by
  obtain ⟨w,hw⟩ := h
  cases hlatch : latched b.dac i with
  | none => exact ⟨w,hw.step hf hr hlatch⟩
  | some w' => exact ⟨w',sends_of_latched hlatch⟩

/-- From the end of the reset pulse on: the outputs are framed, the handshake is
in step, and the configuration word is still on offer or some word was latched. -/
structure Started (b : Bench) : Prop where
  framed : Framed b.dac.spi
  paired : Paired b.dac
  word : (b.dac.ctrl.state = .config ∧ DacSpi.Free b.dac.spi) ∨ ∃ w, Sends w b

theorem Started.step (h : Started b) (hr : i.reset = false) : Started (b.step i) := by
  refine ⟨h.framed.step _,h.paired.step hr,?_⟩
  rcases h.word with ⟨hs,hf⟩ | hw
  · have hq : Fsm.config.request i.data = some (configWord,.delay) := rfl
    obtain ⟨hs',hstep⟩ := offer_step hr (hs ▸ hq) hf
    rcases hstep with ⟨-,hf'⟩ | ⟨hlatch,-⟩
    · exact .inl ⟨hs'.trans hs,hf'⟩
    · exact .inr ⟨configWord,sends_of_latched hlatch⟩
  · exact .inr (exists_sends_step h.framed hr hw)

theorem started_of_reset_pulse (b : Bench) (input : ℕ → Input) (m : ℕ) (hm : 100 ≤ m)
    (hlow : ∀ k < m, (input k).resetN = false) : Started (run Bench.step b input m) := by
  have hwindow : ∀ k, m-100 ≤ k → k < m-100+100 → (input k).resetN = false :=
    fun k _ hk => hlow k (by omega)
  have hfree := free_of_reset_pulse (s := b.dac) hwindow
  have hframed := of_reset_pulse (s := b.dac) (P := Framed) (fun _ _ => framed_of_reset)
    (fun _ hf => ⟨hf.spiDone,hf.count,hf.ce,hf.sync⟩) hwindow
  rw [Nat.sub_add_cancel hm,← Bench.run_dac] at hfree hframed
  have hconfig : (run Bench.step b input (m-1+1)).dac.ctrl.state = .config :=
    (nextCtrl_reset (by simp [Input.reset,hlow (m-1) (by omega)])).1
  rw [Nat.sub_add_cancel (by omega)] at hconfig
  exact ⟨hframed,.offering (by simp [hconfig]) hfree,.inl ⟨hconfig,hfree⟩⟩

theorem Initialised.started (h : Initialised b) : Started b := by
  obtain ⟨start,input,m,n,hm,hmn,hlow,hrun,rfl,-⟩ := h
  apply run_invariant _ _ _ (fun _ => Started) hmn (started_of_reset_pulse start input m hm hlow)
  intro k hk hkn hp
  exact hp.step (hrun k hk hkn)

theorem Initialised.idle (h : Initialised b) : b.dac.ctrl.state = .idle := by
  obtain ⟨_,_,_,_,-,-,-,-,-,hidle⟩ := h
  exact hidle

theorem Initialised.ready (h : Initialised b) : Ready b :=
  ⟨h.started.framed,h.started.paired,.inl h.idle⟩

theorem Initialised.exists_sends (h : Initialised b) : ∃ w, Sends w b := by
  rcases h.started.word with ⟨hs,-⟩ | hw
  · rw [h.idle] at hs
    contradiction
  · exact hw

/-- The only word latched is the one made of the code then on the pins. -/
theorem Ready.latched_eq (h : Ready b) (hr : i.reset = false) :
    latched b.dac i = none ∨ latched b.dac i = some (dataWord i.data) := by
  rcases h.state with hs | hs
  · cases h.paired with
    | waiting _ hl _ =>
        have hl' := nextCtrl_waiting hr (.inr hs) hl
        exact .inl (DacSpi.latched_of_not_load hl')
    | offering hne _ | serving hne _ => exact absurd hs hne.2
  · have hq := request_send hs i.data
    cases hd : b.dac.spi.spiDone with
    | false =>
        have hw := DacSpi.latched_eq b.dac.spi (spiInput b.dac i)
        rwa [spiInput_dataIn,(nextCtrl_offered hr hq hd).2.1] at hw
    | true => exact .inl (DacSpi.latched_of_not_load (nextCtrl_acknowledged hr hq hd).2)

/-- The code is certain to be the last one sent: it is about to be latched, or it
was the last one latched. -/
def Committed (code : BitVec 20) (b : Bench) : Prop :=
  (b.dac.ctrl.state = .send ∧ b.dac.spi.state = .idle) ∨
    Sends (dataWord code) b

theorem Committed.step (h : Committed i.data b) (hready : Ready b) (hr : i.reset = false) :
    Committed i.data (b.step i) := by
  have hlatch : latched b.dac i = some (dataWord i.data) → Committed i.data (b.step i) :=
    fun hw => .inr (sends_of_latched hw)
  rcases h with ⟨hs,hspi⟩ | ht
  · have hq := request_send hs i.data
    obtain ⟨hs',hstep⟩ := offer_step hr hq (hready.free hspi)
    rcases hstep with ⟨-,hf'⟩ | ⟨hw,-⟩
    · exact .inl ⟨hs'.trans hs,hf'.state⟩
    · exact hlatch hw
  · rcases hready.latched_eq hr with hw | hw
    · exact .inr (ht.step hready.framed hr hw)
    · exact hlatch hw

theorem committed_of_load (hready : Ready b) (hr : i.reset = false) (hquiet : Quiet b)
    (hl : i.loadData = true) : Committed i.data (b.step i) := by
  have hrest := hready.resting hquiet
  refine .inl ⟨?_,(hrest.step (.inr rfl) hr).2.2.state⟩
  rw [Bench.step_dac,step_ctrl,nextCtrl_idle hr hquiet.ctrl,hl]
  rfl

theorem Served.committed {c : SetVolt} (h : Served b c) (hready : Ready b) :
    Committed c.code (run Bench.step b c.input c.length) := by
  obtain ⟨k,hk,hspi,hopen⟩ := h
  have hready_at : ∀ j, Ready (run Bench.step b c.input j) :=
    fun j => hready.run c.input j (fun _ _ => c.input_reset _)
  have hkeep : ∀ j, Committed c.code (run Bench.step b c.input j) →
      Committed c.code (run Bench.step b c.input (j+1)) :=
    fun j hj => hj.step (i := c.input j) (hready_at j) (c.input_reset j)
  have hfirst : Committed c.code (run Bench.step b c.input (k+1)) := by
    rcases (hready_at k).state with hs | hs
    · have hl : (c.input k).loadData = true := hopen.resolve_left (by rw [hs]; decide)
      exact committed_of_load (hready_at k) (c.input_reset k) ⟨hs,hspi⟩ hl
    · exact hkeep k (.inl ⟨hs,hspi⟩)
  exact run_invariant _ _ _ (fun _ => Committed c.code) hk hfirst (fun j _ _ hj => hkeep j hj)

theorem idle_after_busyClocks (h : Ready b) (input : ℕ → Input)
    (hr : ∀ k, (input k).reset = false) :
    (run Bench.step b input (DacSpi.busyClocks b.dac.spi)).dac.spi.state = .idle := by
  obtain ⟨n,hn⟩ : ∃ n, DacSpi.busyClocks b.dac.spi = n := ⟨_,rfl⟩
  have hcount := run_invariant Bench.step b input
    (fun k b => DacSpi.busyClocks b.dac.spi + k = n) (Nat.zero_le n) hn (by
      intro k _ hk hp
      have hready := h.run input k (fun j _ => hr j)
      have := hready.paired.busyClocks_step (hr k) (DacSpi.ne_idle_of_busyClocks_pos (by omega))
      rw [Bench.step_dac]
      omega)
  rw [hn]
  exact DacSpi.busyClocks_eq_zero_iff.mp (by omega)

/-- An update is served if the request in progress when it starts is over before
its pulse is. -/
theorem served_of_busyClocks_lt {c : SetVolt} (h : Ready b)
    (hlt : DacSpi.busyClocks b.dac.spi < c.lead+c.hold) : Served b c := by
  have hspi := idle_after_busyClocks h c.input c.input_reset
  have hready := h.run c.input (DacSpi.busyClocks b.dac.spi) (fun k _ => c.input_reset k)
  have hlength : c.lead+c.hold ≤ c.length := Nat.le_add_right _ _
  rcases Nat.lt_or_ge (DacSpi.busyClocks b.dac.spi) c.lead with hlead | hlead
  · rcases hready.state with hs | hs
    · have hrest := run_invariant Bench.step b c.input
        (fun _ b => Resting .idle b.dac) hlead.le (hready.resting ⟨hs,hspi⟩) (by
          intro k _ hk hp
          exact hp.step_idle (c.input_reset k) (by simp [SetVolt.input]; omega))
      have hhold := c.hold_ge
      exact ⟨c.lead,by omega,hrest.spi.state,.inr (by simp [SetVolt.input]; omega)⟩
    · exact ⟨_,hlt.trans_le hlength,hspi,.inl hs⟩
  · exact ⟨_,hlt.trans_le hlength,hspi,.inr (by simp [SetVolt.input]; omega)⟩

theorem served_of_latched {c : SetVolt} {k : ℕ} {w : BitVec 24} (h : Ready b) (hk : k < c.length)
    (hw : latched (run Bench.step b c.input k).dac (c.input k) = some w) : Served b c := by
  have hready := h.run c.input k (fun j _ => c.input_reset j)
  obtain ⟨-,-,hspi,hl,-⟩ := DacSpi.latched_eq_some_iff.mp hw
  refine ⟨k,hk,hspi,.inl ?_⟩
  rcases hready.state with hs | hs
  · have hrest := hready.resting ⟨hs,hspi⟩
    have hl' := nextCtrl_waiting (c.input_reset k) (.inr hs) hrest.load
    rw [spiInput_spiLoad,hl'] at hl
    contradiction
  · exact hs

theorem sends_of_not_served {c : SetVolt} {w : BitVec 24} (h : Ready b) (hn : ¬ Served b c)
    (hw : Sends w b) : Sends w (run Bench.step b c.input c.length) := by
  apply run_invariant _ _ _ (fun _ => Sends w) (Nat.zero_le c.length) hw
  intro k _ hk hp
  have hready := h.run c.input k (fun j _ => c.input_reset j)
  have hnone : latched (run Bench.step b c.input k).dac (c.input k) = none := by
    cases hw : latched (run Bench.step b c.input k).dac (c.input k) with
    | none => rfl
    | some w' => exact absurd (served_of_latched h hk hw) hn
  exact hp.step hready.framed (c.input_reset k) hnone

theorem exists_sends_process (h : Ready b) (cs : List SetVolt) (hw : ∃ w, Sends w b) :
    ∃ w, Sends w (process b cs) := by
  induction cs generalizing b with
  | nil => exact hw
  | cons c cs ih =>
      have hready : ∀ k, Ready (run Bench.step b c.input k) :=
        fun k => h.run c.input k (fun j _ => c.input_reset j)
      have hrun := run_invariant Bench.step b c.input (fun _ b => ∃ w, Sends w b)
        (Nat.zero_le c.length) hw
        (fun k _ _ hp => exists_sends_step (hready k).framed (c.input_reset k) hp)
      exact ih (hready c.length) hrun

theorem Ready.sends_step {w : BitVec 24} (h : Ready b) (hw : Sends w b)
    (hspi : b.dac.spi.state ≠ .idle) (hr : i.reset = false) : Sends w (b.step i) :=
  hw.step h.framed hr (DacSpi.latched_of_not_idle _ hspi)

/-- The word is on its way, with at least `n` clocks to go. -/
structure Flying (w : BitVec 24) (n : ℕ) (b : Bench) : Prop where
  ready : Ready b
  state : b.dac.ctrl.state = .send
  sends : Sends w b
  clocks : n ≤ DacSpi.busyClocks b.dac.spi

variable {w : BitVec 24}

theorem Flying.step {n : ℕ} (h : Flying w (n+1) b) (hn : 100 ≤ n) (hr : i.reset = false) :
    Flying w n (b.step i) := by
  have hbusy := DacSpi.ne_idle_of_busyClocks_pos (n.succ_pos.trans_le h.clocks)
  have hdone := DacSpi.spiDone_of_busyClocks h.ready.framed.spiDone (by have := h.clocks; omega)
  have hq := request_send h.state i.data
  have hclocks := h.ready.paired.busyClocks_step hr hbusy
  have := h.clocks
  exact ⟨h.ready.step hr,(nextCtrl_offered hr hq hdone).1.trans h.state,
    h.ready.sends_step h.sends hbusy hr,by rw [Bench.step_dac]; omega⟩

theorem Flying.run {m n : ℕ} (h : Flying w (n+m) b) (input : ℕ → Input) (hn : 100 ≤ n)
    (hr : ∀ k < m, (input k).reset = false) : Flying w n (run Bench.step b input m) := by
  have hinv := run_invariant Bench.step b input
    (fun k => Flying w (n+m-k)) (Nat.zero_le m) h (by
      intro k _ hk hp
      have hsub : n+m-k = n+m-(k+1)+1 := by omega
      rw [hsub] at hp
      exact hp.step (by omega) (hr k hk))
  simpa using hinv

/-- An open request is latched within 100 clocks. -/
theorem flying_of_open (code : BitVec 20) (input : ℕ → Input) (h : Ready b)
    (hs : b.dac.ctrl.state = .send) (hf : DacSpi.Free b.dac.spi)
    (hr : ∀ k < 100, (input k).reset = false)
    (hdata : ∀ k < 100, (input k).data = code) :
    Flying (dataWord code) 2500 (run Bench.step b input 100) := by
  have hinv := run_invariant Bench.step b input
    (fun k b => (Ready b ∧ b.dac.ctrl.state = .send ∧ DacSpi.Free b.dac.spi ∧
      b.dac.spi.div.toRise + k ≤ 100) ∨ Flying (dataWord code) (2600-k) b) (Nat.zero_le 100)
    (.inl ⟨h,hs,hf,Divider.toRise_le _⟩) (by
      intro k _ hk hp
      have hrk := hr k hk
      rcases hp with ⟨hready,hs,hf,hrise⟩ | hfly
      · have hq : Fsm.send.request (input k).data = some (dataWord code,.idle) := by
          rw [hdata k hk]; rfl
        obtain ⟨hs',hstep⟩ := offer_step hrk (hs ▸ hq) hf
        rcases hstep with ⟨hw,hf'⟩ | ⟨hw,-⟩
        · refine .inl ⟨hready.step hrk,hs'.trans hs,hf',?_⟩
          cases ht : (run Bench.step b input k).dac.spi.div.rises with
          | true => simp [latched_of_rises hrk hs hq hf ht] at hw
          | false =>
              have := Divider.toRise_step_of_not_rises ht
              simp only [Bench.step_dac,step_spi,DacSpi.step_div]
              omega
        · refine .inr ⟨hready.step hrk,hs'.trans hs,sends_of_latched hw,?_⟩
          have hclocks := DacSpi.busyClocks_of_latched hw
          rw [Bench.step_dac,step_spi,hclocks]
          omega
      · have hsub : 2600-k = 2600-(k+1)+1 := by omega
        rw [hsub] at hfly
        exact .inr (hfly.step (by omega) hrk))
  rcases hinv with ⟨-,-,-,hrise⟩ | hfly
  · have := Divider.toRise_pos (run Bench.step b input 100).dac.spi.div
    omega
  · exact hfly

theorem Ready.busy (h : Ready b) (hs : b.dac.ctrl.state = .send)
    (hspi : b.dac.spi.state ≠ .idle) : DacSpi.Busy b.dac.spi := by
  cases h.paired with
  | waiting hw _ _ => simp [hs] at hw
  | offering _ hf => exact absurd hf.state hspi
  | serving _ hb => exact hb

/-- The word is on its way or just being acknowledged. -/
structure Closing (w : BitVec 24) (b : Bench) : Prop where
  ready : Ready b
  sends : Sends w b
  spi : b.dac.spi.state ≠ .idle
  state : b.dac.ctrl.state = .send ∨ Parting .idle b.dac

theorem Closing.step (h : Closing w b) (hr : i.reset = false) (hload : i.loadData = false) :
    (Quiet (b.step i) ∧ Sends w (b.step i)) ∨ (Closing w (b.step i) ∧
      DacSpi.busyClocks (b.step i).dac.spi < DacSpi.busyClocks b.dac.spi) := by
  have hready := h.ready.step hr
  have ht := h.ready.sends_step h.sends h.spi hr
  have hclocks := h.ready.paired.busyClocks_step hr h.spi
  have hlt : DacSpi.busyClocks (b.step i).dac.spi < DacSpi.busyClocks b.dac.spi := by
    rw [Bench.step_dac]
    omega
  rcases h.state with hs | hpart
  · obtain ⟨-,hstep⟩ := busy_step hr (request_send hs i.data) (h.ready.busy hs h.spi)
    rcases hstep with ⟨hs',hb'⟩ | ⟨hs',hl',hset⟩
    · exact .inr ⟨⟨hready,ht,hb'.state,.inl (hs'.trans hs)⟩,hlt⟩
    · rcases parting_or_resting hs' hl' hset with hp | hp
      · exact .inr ⟨⟨hready,ht,hp.spi.busy.state,.inr hp⟩,hlt⟩
      · exact .inl ⟨⟨hs',hp.spi.state⟩,ht⟩
  · have hs' : (Cn0531.step b.dac i).ctrl.state = .idle := by
      rw [step_ctrl,nextCtrl_idle hr hpart.state,hload]
      rfl
    rcases hpart.step (.inr rfl) hr hs' with hp | ⟨hp,-⟩
    · exact .inl ⟨⟨hp.state,hp.spi.state⟩,ht⟩
    · exact .inr ⟨⟨hready,ht,hp.spi.busy.state,.inr hp⟩,hlt⟩

theorem Closing.ends (h : Closing w b) (input : ℕ → Input) (hr : ∀ k, (input k).reset = false)
    (hload : ∀ k, (input k).loadData = false) :
    ∃ n, Quiet (run Bench.step b input n) ∧
      Sends w (run Bench.step b input n) := by
  obtain ⟨n,-,hgoal,-⟩ := run_reaches Bench.step b input (m := 0)
    (Closing w) (fun b => Quiet b ∧ Sends w b)
    (fun b => DacSpi.busyClocks b.dac.spi) h (fun k _ hp => hp.step (hr k) (hload k))
  exact ⟨n,hgoal⟩

theorem Flying.closing {n : ℕ} (h : Flying w (n+1) b) : Closing w b :=
  ⟨h.ready,h.sends,DacSpi.ne_idle_of_busyClocks_pos (n.succ_pos.trans_le h.clocks),.inl h.state⟩

/-- The handler's pulse with the shortest timing: the code one clock ahead, then
1000 clocks. -/
def setVolt (code : BitVec 20) (gap : ℕ) : SetVolt := ⟨code,1,1000,gap,le_rfl⟩

theorem flying_of_setVolt (code : BitVec 20) (gap : ℕ) (h : Ready b) (hq : Quiet b) :
    Flying (dataWord code) 1601 (run Bench.step b (setVolt code gap).input 1001) := by
  have hr : ∀ k, ((setVolt code gap).input k).reset = false := fun _ => rfl
  have hrest := (h.resting hq).step_idle (hr 0) rfl
  have hopen := hrest.step (i := (setVolt code gap).input 1) (.inr rfl) (hr 1)
  have hsend : (run Bench.step b (setVolt code gap).input 2).dac.ctrl.state = .send :=
    nextCtrl_idle (hr 1) hrest.state
  have hready := h.run (setVolt code gap).input 2 (fun k _ => hr k)
  have hfly := flying_of_open code (fun k => (setVolt code gap).input (2+k)) hready hsend hopen.2.2
    (fun _ _ => rfl) (fun _ _ => rfl)
  have hlate := hfly.run (m := 899) (n := 1601)
    (fun k => (setVolt code gap).input (2+(100+k))) (by decide) (fun _ _ => rfl)
  rwa [← run_add Bench.step _ (fun k => (setVolt code gap).input (2+k)),← run_add] at hlate

theorem accepted_in_gap {code : BitVec 20}
    (h : Closing w (run Bench.step b (setVolt code 0).input 1001)) :
    ∃ gap, Quiet (process b [setVolt code gap]) ∧
      (process b [setVolt code gap]).rx.words.getLast? = some w := by
  obtain ⟨gap,hq,ht⟩ := h.ends (fun k => (setVolt code 0).input (1001+k))
    (fun _ => rfl) (fun k => by simp [setVolt,SetVolt.input])
  rw [← run_add] at hq ht
  exact ⟨gap,hq,ht.accepted hq.spi⟩

/-- After any list of updates, with everything back in IDLE, the last word sent is
the one of the last update if and only if this update was served, or its word was
the last one already. -/
theorem last_update_sent_iff (b : Bench) (hinit : Initialised b) (cs : List SetVolt) (c : SetVolt)
    (hquiet : Quiet (process b (cs ++ [c]))) :
    (process b (cs ++ [c])).rx.words.getLast? = some (dataWord c.code) ↔
      Served (process b cs) c ∨ Sends (dataWord c.code) (process b cs) := by
  have hready := hinit.ready.process cs
  rw [process_concat] at hquiet ⊢
  by_cases hserved : Served (process b cs) c
  · refine ⟨fun _ => .inl hserved,fun _ => ?_⟩
    rcases hserved.committed hready with ⟨hs,-⟩ | hw
    · rw [hquiet.ctrl] at hs
      contradiction
    · exact hw.accepted hquiet.spi
  · constructor
    · intro hlast
      obtain ⟨w,hw⟩ := exists_sends_process hinit.ready cs hinit.exists_sends
      have hkept := (sends_of_not_served hready hserved hw).accepted hquiet.spi
      rw [hkept,Option.some.injEq] at hlast
      exact .inr (hlast ▸ hw)
    · intro h
      exact (sends_of_not_served hready hserved (h.resolve_left hserved)).accepted hquiet.spi

/-- The bench at power-up. -/
def start : Bench := ⟨powerUp,⟨[],[]⟩⟩

theorem initialised_cleanStart : ∃ n, Initialised (run Bench.step start cleanStart n) ∧
    Quiet (run Bench.step start cleanStart n) := by
  obtain ⟨n,hn,hrest⟩ := cleanStart_reaches_idle
  have hdac := Bench.run_dac start cleanStart n
  have hq : Quiet (run Bench.step start cleanStart n) := by
    constructor <;> rw [hdac]
    · exact hrest.state
    · exact hrest.spi.state
  refine ⟨n,⟨start,cleanStart,100,n,le_rfl,hn,?_,fun k hk _ => cleanStart_reset hk,rfl,hq.ctrl⟩,hq⟩
  intro k hk
  simpa [cleanStart] using hk

/-- A single update after the start-up is served and sent. -/
theorem last_update_sent_single : ∃ n gap,
    Initialised (run Bench.step start cleanStart n) ∧
      Quiet (process (run Bench.step start cleanStart n) ([] ++ [setVolt 1 gap])) ∧
      Served (process (run Bench.step start cleanStart n) []) (setVolt 1 gap) ∧
      ((process (run Bench.step start cleanStart n) ([] ++ [setVolt 1 gap])).rx.words.getLast? =
          some (dataWord (setVolt 1 gap).code) ↔
        Served (process (run Bench.step start cleanStart n) []) (setVolt 1 gap) ∨
          Sends (dataWord (setVolt 1 gap).code)
            (process (run Bench.step start cleanStart n) [])) := by
  obtain ⟨n,hinit,hq⟩ := initialised_cleanStart
  have hready := hinit.ready
  obtain ⟨gap,hquiet,-⟩ := accepted_in_gap (flying_of_setVolt 1 0 hready hq).closing
  have hserved : Served (process (run Bench.step start cleanStart n) []) (setVolt 1 gap) := by
    apply served_of_busyClocks_lt hready
    have hidle := DacSpi.busyClocks_eq_zero_iff.mpr hq.spi
    simp only [hidle,setVolt]
    decide
  exact ⟨n,gap,hinit,hquiet,hserved,last_update_sent_iff _ hinit [] (setVolt 1 gap) hquiet⟩

/-- Two updates back to back: the second pulse is over before the frame of the
first one is, and the DAC keeps the first code. -/
theorem last_update_lost_back_to_back : ∃ n gap,
    Initialised (run Bench.step start cleanStart n) ∧
      Quiet (process (run Bench.step start cleanStart n) [setVolt 1 0,setVolt 2 gap]) ∧
      (process (run Bench.step start cleanStart n) [setVolt 1 0,setVolt 2 gap]).rx.words.getLast? ≠
        some (dataWord 2) := by
  obtain ⟨n,hinit,hq⟩ := initialised_cleanStart
  have hfirst := flying_of_setVolt 1 0 hinit.ready hq
  have hsecond := hfirst.run (m := 1001) (n := 600) (setVolt 2 0).input (by decide)
    (fun _ _ => rfl)
  obtain ⟨gap,hquiet,hlast⟩ := accepted_in_gap hsecond.closing
  have hlength : (setVolt 1 0).length = 1001 := rfl
  refine ⟨n,gap,hinit,?_⟩
  rw [process_cons,hlength,hlast]
  exact ⟨hquiet,by decide⟩

end FpgaTest.VoltageUpdates
