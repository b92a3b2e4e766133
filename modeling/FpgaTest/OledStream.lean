import FpgaTest.OledCommands

/-!
# The command stream on the line

A byte has been transmitted when its eighth bit is sampled, and it is a command
if the data/command line is low at that bit. What has been transmitted since the
last reset is compared with what the engine has taken: a byte that the engine
has taken is the next one to be transmitted.

A reset does not take back a byte that is on its way. The button leaves the
engine alone, and a short pulse of RESET_N misses it, so the rest of such a byte
goes out behind the reset.
-/
namespace FpgaTest.OledStream
open ClockedMachine SerialBits OledControl OledProgram OledStages OledPanel OledRestart
open OledHandshake OledCommands

/-- The samples of the byte taken last, and the state that has offered it. -/
structure Frame where
  origin : Fsm
  samples : List (Bool × Bool)
  deriving DecidableEq, Repr

def Frame.step (f : Frame) (s : State) (i : Input) : Frame :=
  if (latched s i).isSome then ⟨s.ctrl.state,[]⟩
  else { f with samples := f.samples ++ (sample s i).toList }

/-- The command whose eighth bit is sampled at the edge. -/
def transmitted (f : Frame) (s : State) (i : Input) : Option Sent :=
  (sample s i).bind fun x =>
    if f.samples.length = 7 ∧ x.1 = false then some (f.origin,(reading (f.samples ++ [x])).2)
    else none

def frame (input : ℕ → Input) : ℕ → Frame
  | 0 => ⟨.idel,[]⟩
  | n+1 => (frame input n).step (run step powerUp input n) (input n)

/-- The commands transmitted since the last reset. -/
def stream (input : ℕ → Input) : ℕ → List Sent :=
  putOutSince (fun k => (input k).reset) fun k =>
    transmitted (frame input k) (run step powerUp input k) (input k)

section Edge
variable {f : Frame} {s : State} {i : Input} {taken sent : List Sent}

theorem clockGated_step {t : OledSpi.State} {j : OledSpi.Input} (h : ClockGated t)
    (hs : Sound t) : ClockGated (OledSpi.step t j) := by
  cases hr : j.resetN with
  | true => exact h.step hs hr
  | false =>
      cases ht : t.div.falls with
      | false =>
          rw [OledSpi.step_of_not_falls j ht]
          exact h
      | true =>
          rw [OledSpi.step_reset ht hr]
          intro hce
          contradiction

theorem sample_of_latched (h : (latched s i).isSome) : sample s i = none := by
  cases ht : s.spi.div.falls with
  | true =>
      have hclock := (ClockDivider.Divider.clock_of_falls ht).1
      simp [sample,sampledBit,OledSpi.spiClock,hclock]
  | false =>
      rw [latched,OledSpi.latched_of_not_falls _ ht] at h
      contradiction

/-- The commands transmitted follow the commands taken: they are the same when no
bit is left to be sampled, and else the byte taken last is on its way. -/
structure Follows (f : Frame) (s : State) (taken sent : List Sent) : Prop where
  logged : ∃ next, Logged next sent
  idle : pending s.spi = [] → taken = sent
  busy : pending s.spi ≠ [] → Stage s ∧ ∃ b : BitVec 8,
    f.samples.map Prod.snd ++ pending s.spi = msbFirst b 8 ∧
    taken = sent ++ if s.ctrl.oledDcN then [] else [(f.origin,b)]

/-- A byte is taken when nothing is left of the one before it. -/
theorem Follows.latch {x : Bool × BitVec 8} (h : Follows f s taken sent) (ho : Operating s)
    (hg : ClockGated s.spi) (hr : i.reset = false) (hx : latched s i = some x) :
    Follows (f.step s i) (step s i) (taken ++ (command s i).toList)
      (sent ++ (transmitted f s i).toList) := by
  have hsome : (latched s i).isSome := by rw [hx]; rfl
  have hnone := sample_of_latched hsome
  obtain ⟨b,hb,rfl⟩ := Option.map_eq_some_iff.mp hx
  have hstate := (OledSpi.latched_eq_some_iff.mp hb).2.2.1
  have hempty := pending_eq_nil hg (.inl hstate) (sound_of_operating ho)
  have hbits := pending_step (i := spiInput s i) hg (Input.resetN_of_not_reset hr)
  rw [sample,Option.map_eq_none_iff] at hnone
  rw [hnone,hempty,hb] at hbits
  have hpending : pending (step s i).spi = msbFirst b 8 := by simpa using hbits
  have hsent : transmitted f s i = none := by simp [transmitted,sample,hnone]
  have hframe : f.step s i = ⟨s.ctrl.state,[]⟩ := if_pos hsome
  have hstage : Stage s := by
    rcases ho with hstage | hrestart
    · exact hstage
    · have hoffers := offers_of_latched (.inr hrestart) hr hx
      cases hrestart with
      | idel hs | delay hs =>
          rw [hs] at hoffers
          contradiction
  rw [hsent,hframe,Option.toList_none,List.append_nil]
  refine ⟨h.logged,fun hno => ?_,fun _ => ⟨hstage.step hr,b,hpending,?_⟩⟩
  · rw [hpending] at hno
    exact absurd (congrArg List.length hno) (by simp)
  · rw [h.idle hempty,command,hx,step_ctrl]
    cases (nextCtrl s i).oledDcN <;> rfl

theorem Follows.silent (h : Follows f s taken sent) (hg : ClockGated s.spi)
    (hr : i.reset = false) (hnone : latched s i = none) (hsample : sample s i = none)
    (hbits : pending (step s i).spi = pending s.spi) :
    Follows (f.step s i) (step s i) taken (sent ++ (transmitted f s i).toList) := by
  have hframe : f.step s i = f := by simp [Frame.step,hnone,hsample]
  have hsent : transmitted f s i = none := by simp [transmitted,hsample]
  rw [hframe,hsent,Option.toList_none,List.append_nil]
  refine ⟨h.logged,fun hno => h.idle (hbits ▸ hno),fun hne => ?_⟩
  rw [hbits] at hne ⊢
  obtain ⟨hstage,b,hb,htaken⟩ := h.busy hne
  refine ⟨hstage.step hr,b,hb,?_⟩
  rw [step_ctrl,oledDcN_step hstage hg hr hne]
  exact htaken

/-- The byte is transmitted with its last bit. -/
theorem Follows.sampled {bit : Bool} (h : Follows f s taken sent)
    (hlog : ∃ next, Logged next taken) (hg : ClockGated s.spi) (hr : i.reset = false)
    (hnone : latched s i = none) (hbit : sampledBit s.spi (spiInput s i) = some bit)
    (hbits : bit::pending (step s i).spi = pending s.spi) :
    Follows (f.step s i) (step s i) taken (sent ++ (transmitted f s i).toList) := by
  have hne : pending s.spi ≠ [] := by
    rw [← hbits]
    exact List.cons_ne_nil _ _
  obtain ⟨hstage,b,hb,htaken⟩ := h.busy hne
  have hdc := oledDcN_step hstage hg hr hne
  have hsample : sample s i = some (s.ctrl.oledDcN,bit) := by rw [sample,hbit,hdc]; rfl
  have hframe : f.step s i = { f with samples := f.samples ++ [(s.ctrl.oledDcN,bit)] } := by
    simp [Frame.step,hnone,hsample]
  rw [← hbits] at hb
  have hlength := congrArg List.length hb
  rw [List.length_append,List.length_map,List.length_cons,length_msbFirst] at hlength
  rw [hframe]
  by_cases hlast : pending (step s i).spi = []
  · -- the eighth bit
    rw [hlast] at hb hlength
    have hseven : f.samples.length = 7 := Nat.succ_injective hlength
    have hbyte : (reading (f.samples ++ [(s.ctrl.oledDcN,bit)])).2 = b := by
      have hbits' : (f.samples ++ [(s.ctrl.oledDcN,bit)]).map Prod.snd = msbFirst b 8 := by
        rw [List.map_append]
        exact hb
      rw [reading,hbits']
      exact ofBoolListBE_msbFirst b
    have hsent : sent ++ (transmitted f s i).toList = taken := by
      rw [htaken,transmitted,hsample,Option.bind_some,hbyte,hseven]
      cases s.ctrl.oledDcN <;> rfl
    rw [hsent]
    exact ⟨hlog,fun _ => rfl,fun hmore => absurd hlast hmore⟩
  · have hmore := List.length_pos_of_ne_nil hlast
    have hsent : transmitted f s i = none := by
      rw [transmitted,hsample,Option.bind_some,if_neg (by omega)]
    rw [hsent,Option.toList_none,List.append_nil]
    refine ⟨h.logged,fun hno => absurd hno hlast,fun _ => ⟨hstage.step hr,b,?_,?_⟩⟩
    · rw [List.map_append,List.append_assoc]
      exact hb
    · rw [step_ctrl,hdc]
      exact htaken

theorem Follows.shift (h : Follows f s taken sent) (hlog : ∃ next, Logged next taken)
    (hg : ClockGated s.spi) (hr : i.reset = false) (hnone : latched s i = none) :
    Follows (f.step s i) (step s i) (taken ++ (command s i).toList)
      (sent ++ (transmitted f s i).toList) := by
  have hlatch : OledSpi.latched s.spi (spiInput s i) = none := by
    rwa [latched,Option.map_eq_none_iff] at hnone
  have hbits := pending_step (i := spiInput s i) hg (Input.resetN_of_not_reset hr)
  rw [hlatch,Option.toList_none,List.flatMap_nil,List.append_nil] at hbits
  have hcommand : command s i = none := by rw [command,hnone]; rfl
  rw [hcommand,Option.toList_none,List.append_nil]
  cases hbit : sampledBit s.spi (spiInput s i) with
  | none =>
      have hsample : sample s i = none := by rw [sample,hbit]; rfl
      rw [hbit] at hbits
      exact h.silent hg hr hnone hsample hbits
  | some bit =>
      rw [hbit] at hbits
      exact h.sampled hlog hg hr hnone hbit hbits

end Edge

section Runs
variable (input : ℕ → Input)

theorem clockGated_run (n : ℕ) : ClockGated (run step powerUp input n).spi := by
  induction n with
  | zero => exact fun hce => Bool.noConfusion hce
  | succ n ih => exact clockGated_step ih (sound_of_operating (operating_run input n))

/-- The last reset before edge `n` left no bit to be sampled. -/
def NothingInFlight (n : ℕ) : Prop :=
  ∀ m < n, (input m).reset = true → (∀ k, m < k → k < n → (input k).reset = false) →
    pending (run step powerUp input (m+1)).spi = []

/-- Since the last reset before edge `n` no byte that the engine has taken from
PRE_CHARG1 has been transmitted. -/
def Unspoilt (n : ℕ) : Prop :=
  ∀ k < n, (∀ j, k ≤ j → j < n → (input j).reset = false) → (frame input k).origin = .preCharg1 →
    transmitted (frame input k) (run step powerUp input k) (input k) = none

variable {input}

theorem follows_run {n : ℕ} (h : NothingInFlight input n) :
    Follows (frame input n) (run step powerUp input n) (takenSince input n) (stream input n) := by
  induction n with
  | zero => exact ⟨⟨_,logged_nil⟩,fun _ => rfl,fun hne => absurd rfl hne⟩
  | succ n ih =>
      rw [takenSince,stream,putOutSince,putOutSince]
      cases hr : (input n).reset with
      | true =>
          have hempty := h n (Nat.lt_succ_self n) hr (fun k hk hkn => by omega)
          exact ⟨⟨_,logged_nil⟩,fun _ => rfl,fun hne => absurd hempty hne⟩
      | false =>
          have hbefore : NothingInFlight input n := by
            intro m hm hreset hlast
            refine h m (by omega) hreset fun k hk hkn => ?_
            rcases Nat.lt_succ_iff_lt_or_eq.mp hkn with hlt | rfl
            · exact hlast k hk hlt
            · exact hr
          have hfollows := ih hbefore
          have hgated := clockGated_run input n
          cases hx : latched (run step powerUp input n) (input n) with
          | some x => exact hfollows.latch (operating_run input n) hgated hr hx
          | none => exact hfollows.shift ⟨_,logged_run input n⟩ hgated hr hx

theorem origin_of_transmitted {f : Frame} {s : State} {i : Input} {x : Sent}
    (h : transmitted f s i = some x) : f.origin = x.1 := by
  obtain ⟨y,-,hy⟩ := Option.bind_eq_some_iff.mp h
  split at hy
  · rw [← Option.some.inj hy]
  · contradiction

theorem unspoilt_iff (n : ℕ) : Unspoilt input n ↔ ∀ x ∈ stream input n, x.1 ≠ .preCharg1 := by
  constructor
  · intro h x hx hstate
    obtain ⟨k,hk,hno,hsent⟩ := mem_putOutSince.mp hx
    rw [h k hk hno ((origin_of_transmitted hsent).trans hstate)] at hsent
    contradiction
  · intro h k hk hno hstate
    cases hsent : transmitted (frame input k) (run step powerUp input k) (input k) with
    | none => rfl
    | some x =>
        have hx : x ∈ stream input n := mem_putOutSince.mpr ⟨k,hk,hno,hsent⟩
        exact absurd ((origin_of_transmitted hsent).symm.trans hstate) (h x hx)

end Runs

/-- In every run with resets at any time, the last of which left nothing in
flight: of all command bytes transmitted since then only that of PRE_CHARG1 lacks
its opcode. Every parameter follows its opcode, and the stream is one of commands,
as long as no byte of PRE_CHARG1 has been transmitted. -/
theorem parameters_follow_opcodes_iff (input : ℕ → Input) (n : ℕ)
    (h : NothingInFlight input n) :
    (∀ before x after, stream input n = before ++ x::after →
      (Introduced before.getLast? x.1 ↔ x.1 ≠ .preCharg1)) ∧
    (WellPaired (stream input n) ∧ parse (stream input n) ≠ none ↔ Unspoilt input n) := by
  obtain ⟨next,hlog⟩ := (follows_run h).logged
  exact ⟨hlog.pairs,hlog.ordered_iff.trans (unspoilt_iff n).symm⟩

theorem nothingInFlight_eager (n : ℕ) : NothingInFlight eager n := by
  intro m _ hr _
  rcases Nat.eq_zero_or_pos m with rfl | hm
  · decide
  · rw [eager_reset hm] at hr
    contradiction

/-- When the display is set up, a byte of PRE_CHARG1 has been transmitted. -/
theorem exists_spoilt_eager : ∃ n next, Logged next (stream eager n) ∧ early next = false := by
  obtain ⟨n,-,hacc⟩ := eager_accepted
  obtain ⟨-,hs,-⟩ := accepts_iff.mp hacc
  have hlog := logged_run eager n
  have hnext : upcoming (position (run step powerUp eager n)) = .done := by
    simp [upcoming,position,point,hs,offers]
  have hop := operating_run eager n
  have hempty := pending_eq_nil (clockGated_run eager n) (.inl (ready_of_done hop hs).2.state)
    (sound_of_operating hop)
  rw [hnext,(follows_run (nothingInFlight_eager n)).idle hempty] at hlog
  exact ⟨n,_,hlog,rfl⟩

theorem parameters_follow_opcodes_eager : ∃ n, NothingInFlight eager n ∧ ¬ Unspoilt eager n ∧
    ¬ (WellPaired (stream eager n) ∧ parse (stream eager n) ≠ none) := by
  obtain ⟨n,next,hlog,hspoilt⟩ := exists_spoilt_eager
  obtain ⟨x,hx,hstate⟩ := (hlog.spoilt hspoilt).1
  have hspoiled : ¬ Unspoilt eager n := fun h => (unspoilt_iff n).mp h x hx hstate
  exact ⟨n,nothingInFlight_eager n,hspoiled,
    mt (parameters_follow_opcodes_iff eager n (nothingInFlight_eager n)).2.mp hspoiled⟩

theorem preCharg_parameter_without_opcode : ∃ n, ¬ WellPaired (stream eager n) ∧
    parse (stream eager n) = none := by
  obtain ⟨n,next,hlog,hspoilt⟩ := exists_spoilt_eager
  obtain ⟨⟨x,hx,hstate⟩,hparse⟩ := hlog.spoilt hspoilt
  refine ⟨n,fun hpaired => ?_,hparse⟩
  obtain ⟨before,after,hl⟩ := List.append_of_mem hx
  exact (hlog.pairs before x after hl).mp (hpaired before x after hl) hstate

end FpgaTest.OledStream
