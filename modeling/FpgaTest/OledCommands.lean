import FpgaTest.OledHandshake

/-!
# The command stream of the display

Some commands of the display take parameters: a byte with the data/command line
low is then not an opcode. The controller sends opcode and parameters from
different states, and the order of the states is spread over the assignments to
`nextState`. CHARG_PUMP1 names PRE_CHARG1 instead of PRE_CHARG, so the parameter
of the pre-charge command is sent without its opcode. All other parameters stand
where they belong.

The bytes are logged as the engine takes them, and the log is emptied by every
reset.
-/
namespace FpgaTest.OledCommands
open ClockedMachine CharRom OledControl OledProgram OledStages OledRestart OledHandshake

/-- A command byte with the state that sends it. -/
abbrev Sent := Fsm × BitVec 8

/-- The byte latched with the data/command line low. -/
def command (s : State) (i : Input) : Option Sent :=
  (latched s i).bind fun x => if x.1 then none else some (s.ctrl.state,x.2)

/-- The command bytes that the engine has taken since the last reset. -/
def takenSince (input : ℕ → Input) : ℕ → List Sent :=
  putOutSince (fun k => (input k).reset) fun k => command (run step powerUp input k) (input k)

/-- What has to stand right before the byte of a state: for a parameter the
opcode of its command, or the parameter before it. -/
def Introduced (previous : Option Sent) : Fsm → Prop
  | .chargPump1 => previous.map Prod.snd = some 0x8d
  | .preCharg1 => previous.map Prod.snd = some 0xd9
  | .contrast1 => previous.map Prod.snd = some 0x81
  | .comPin1 => previous.map Prod.snd = some 0xda
  | .pageAddr1 => previous.map Prod.snd = some 0x22
  | .pageAddr2 => previous.map Prod.fst = some .pageAddr1
  | _ => True

def WellPaired (l : List Sent) : Prop :=
  ∀ before x after, l = before ++ x::after → Introduced before.getLast? x.1

/-- The number of parameters of a command. -/
def parameters (opcode : BitVec 8) : Option ℕ :=
  if opcode ∈ [0xae#8,0xa0#8,0xc0#8,0xaf#8,0x10#8] then some 0
  else if opcode ∈ [0x8d#8,0xd9#8,0x81#8,0xda#8] then some 1
  else if opcode = 0x22#8 then some 2
  else none

/-- The parameters that a stream of commands still lacks after one more byte. -/
def parseByte : Option ℕ → BitVec 8 → Option ℕ
  | some 0, b => parameters b
  | some (k+1), _ => some k
  | none, _ => none

/-- The parameters that the last command lacks, nothing if the bytes are no
commands. -/
def parse (l : List Sent) : Option ℕ := l.foldl (fun k x => parseByte k x.2) (some 0)

theorem parse_concat (l : List Sent) (x : Sent) : parse (l ++ [x]) = parseByte (parse l) x.2 := by
  simp [parse]

/-- The point whose byte is latched next. -/
def upcoming (p : Position) : Fsm := if p.taken then p.follow else p.point

/-- The byte latched last before the byte of a state. -/
def Expected (last : Option Sent) : Fsm → Prop
  | .chargPump1 => last = some (.chargPump,0x8d)
  | .preCharg1 => last = some (.chargPump1,0x14)
  | .contrast1 => last = some (.contrast,0x81)
  | .comPin1 => last = some (.comPin,0xda)
  | .pageAddr1 => last = some (.pageAddr,0x22)
  | .pageAddr2 => ∃ b, last = some (.pageAddr1,b)
  | .preCharg => False
  | _ => True

/-- The parameters that are lacking before the byte of a state. -/
def lacking : Fsm → ℕ
  | .chargPump1 | .contrast1 | .comPin1 | .pageAddr2 => 1
  | .pageAddr1 => 2
  | _ => 0

theorem introduced_of_expected {last : Option Sent} {st : Fsm} (h : Expected last st) :
    Introduced last st ↔ st ≠ .preCharg1 := by
  cases st with
  | chargPump1 | preCharg1 | contrast1 | comPin1 | pageAddr1 =>
      rw [Expected] at h
      rw [h]
      simp [Introduced]
  | pageAddr2 =>
      rcases h with ⟨b,h⟩
      rw [h]
      simp [Introduced]
  | _ => simp [Introduced]

theorem expected_follow {p : Position} (ho : offers p.point = true) (hs : p.point ≠ .sendData)
    (hp : p.point ≠ .preCharg) (bitMap : BitVec 64) :
    Expected (some (p.point,p.byte bitMap)) p.follow := by
  cases hpoint : p.point <;> rw [hpoint] at ho hs hp <;> first
    | contradiction
    | simp [Position.follow,Position.byte,hpoint,Expected]

theorem parseByte_follow {p : Position} (ho : offers p.point = true) (hs : p.point ≠ .sendData)
    (hp : p.point ≠ .preCharg) (hp' : p.point ≠ .preCharg1) (bitMap : BitVec 64) :
    parseByte (some (lacking p.point)) (p.byte bitMap) = some (lacking p.follow) := by
  cases hpoint : p.point <;> rw [hpoint] at ho hs hp hp' <;> first
    | contradiction
    | simp [Position.follow,Position.byte,hpoint,lacking,parseByte,parameters]

/-- The points up to the byte of PRE_CHARG1. -/
def early : Fsm → Bool
  | .idel | .init | .reset | .chargPump | .chargPump1 | .preCharg1 => true
  | _ => false

theorem early_follow {p : Position} (ho : offers p.point = true) (hp : p.point ≠ .preCharg) :
    early p.follow = (early p.point && p.point != .preCharg1) := by
  cases hpoint : p.point <;> rw [hpoint] at ho hp <;> first
    | contradiction
    | (simp only [Position.follow,hpoint]; split <;> rfl)
    | simp [Position.follow,hpoint,early]

/-- The stream of commands before the byte of the given state. -/
structure Logged (next : Fsm) (l : List Sent) : Prop where
  last : Expected l.getLast? next
  pairs : ∀ before x after, l = before ++ x::after →
    (Introduced before.getLast? x.1 ↔ x.1 ≠ .preCharg1)
  clean : early next = true → (∀ x ∈ l, x.1 ≠ .preCharg1) ∧ parse l = some (lacking next)
  spoilt : early next = false → (∃ x ∈ l, x.1 = .preCharg1) ∧ parse l = none

theorem logged_nil : Logged .idel [] := by
  refine ⟨trivial,fun before x after h => ?_,fun _ => ⟨by simp,rfl⟩,fun h => ?_⟩
  · simp at h
  · contradiction

theorem split_concat {l before after : List Sent} {x y : Sent}
    (h : l ++ [y] = before ++ x::after) :
    (before = l ∧ x = y) ∨ ∃ after', l = before ++ x::after' := by
  rcases List.eq_nil_or_concat after with rfl | ⟨after',z,rfl⟩
  · obtain ⟨hl,hx⟩ := List.append_inj' h rfl
    exact .inl ⟨hl.symm,(List.singleton_inj.mp hx).symm⟩
  · rw [List.concat_eq_append,← List.cons_append,← List.append_assoc] at h
    exact .inr ⟨after',(List.append_inj' h rfl).1⟩

section
variable {next next' : Fsm} {l : List Sent} {p : Position}

theorem Logged.silent (h : Logged next l) (hearly : early next' = early next)
    (hlacking : lacking next' = lacking next)
    (hlast : ∀ last, Expected last next → Expected last next') : Logged next' l :=
  ⟨hlast _ h.last,h.pairs,hlacking ▸ hearly ▸ h.clean,hearly ▸ h.spoilt⟩

/-- The byte of a command. -/
theorem Logged.concat (h : Logged p.point l) (ho : offers p.point = true)
    (hs : p.point ≠ .sendData) (bitMap : BitVec 64) :
    Logged p.follow (l ++ [(p.point,p.byte bitMap)]) := by
  have hp : p.point ≠ .preCharg := by
    intro hp
    have := h.last
    rw [hp] at this
    exact this
  have hearly := early_follow ho hp
  refine ⟨?_,?_,fun he => ?_,fun he => ?_⟩
  · rw [List.getLast?_concat]
    exact expected_follow ho hs hp bitMap
  · intro before x after hl
    rcases split_concat hl with ⟨rfl,rfl⟩ | ⟨after',hl⟩
    · exact introduced_of_expected h.last
    · exact h.pairs before x after' hl
  · rw [hearly,Bool.and_eq_true,bne_iff_ne] at he
    obtain ⟨hnone,hparse⟩ := h.clean he.1
    constructor
    · intro x hx
      rcases List.mem_append.mp hx with hx | hx
      · exact hnone x hx
      · rw [List.mem_singleton.mp hx]
        exact he.2
    · rw [parse_concat,hparse,parseByte_follow ho hs hp he.2]
  · cases hpoint : early p.point with
    | false =>
        obtain ⟨⟨x,hx,hx1⟩,hparse⟩ := h.spoilt hpoint
        exact ⟨⟨x,List.mem_append_left _ hx,hx1⟩,by rw [parse_concat,hparse]; rfl⟩
    | true =>
        rw [hearly,hpoint,Bool.true_and,bne_eq_false_iff_eq] at he
        obtain ⟨-,hparse⟩ := h.clean hpoint
        refine ⟨⟨_,List.mem_append_right l (List.mem_singleton_self _),he⟩,?_⟩
        rw [parse_concat,hparse,he]
        simp [lacking,parseByte,parameters,Position.byte,he]

variable {i : Input} {p' : Position}

theorem Logged.quiet_move (h : Logged (upcoming p) l) (hmove : Move i p p' none) :
    Logged (upcoming p') l := by
  cases hmove with
  | wait | hold | rest => exact h
  | advance ho ht =>
      rw [upcoming,if_pos ht] at h
      exact h
  | pass hp ht =>
      have hnext : upcoming { p with point := passed p.point } = passed p.point := by
        simp [upcoming,ht]
      rw [upcoming,ht,if_neg Bool.false_ne_true] at h
      rw [hnext]
      cases hpoint : p.point <;> rw [hpoint] at hp h <;> first
        | contradiction
        | exact h.silent rfl rfl fun _ _ => trivial
  | accept hp ht =>
      have hnext : upcoming p.accept = p.accept.point := by
        rw [upcoming,Position.accept]
        split <;> simp [ht]
      rw [upcoming,ht,if_neg Bool.false_ne_true,hp] at h
      rw [hnext,Position.accept]
      split <;> exact h.silent rfl rfl fun _ _ => trivial

/-- What a move of the program adds to the stream. -/
theorem Logged.move {x : Option Transfer} (h : Logged (upcoming p) l) (hmove : Move i p p' x) :
    Logged (upcoming p')
      (l ++ (x.bind fun x => if x.1 then none else some (p.point,x.2)).toList) := by
  cases x with
  | none =>
      rw [Option.bind_none,Option.toList_none,List.append_nil]
      exact h.quiet_move hmove
  | some x =>
      cases hmove with
      | take ho ht =>
          rw [upcoming,ht,if_neg Bool.false_ne_true] at h
          show Logged p.follow _
          by_cases hs : p.point = .sendData
          · simp only [Position.transfer,hs,decide_true,Option.bind_some,if_true,
              Option.toList_none,List.append_nil]
            rw [hs] at h
            rcases follow_of_sendData hs with hf | hf
            · exact hf ▸ h
            · exact hf ▸ h.silent rfl rfl fun _ _ => trivial
          · simp only [Position.transfer,hs,decide_false,Option.bind_some,Bool.false_eq_true,
              if_false,Option.toList_some]
            exact h.concat ho hs _

end

section
variable {s : State} {i : Input} {l : List Sent}

theorem command_eq (h : Operating s) (hr : i.reset = false) :
    command s i =
      (latched s i).bind fun x => if x.1 then none else some ((position s).point,x.2) := by
  cases hx : latched s i with
  | none => rw [command,hx]; rfl
  | some x =>
      have hpoint : (position s).point = s.ctrl.state := point_of_offers (offers_of_latched h hr hx)
      rw [command,hx,hpoint]

theorem Logged.step (h : Operating s) (hr : i.reset = false)
    (hl : Logged (upcoming (position s)) l) :
    Logged (upcoming (position (OledControl.step s i))) (l ++ (command s i).toList) := by
  rw [command_eq h hr]
  exact hl.move (h.step_move hr).2

end

theorem logged_run (input : ℕ → Input) (n : ℕ) :
    Logged (upcoming (position (run step powerUp input n))) (takenSince input n) := by
  induction n with
  | zero => exact logged_nil
  | succ n ih =>
      rw [run_succ,takenSince,putOutSince]
      cases hr : (input n).reset with
      | true =>
          obtain ⟨hpoint,htaken,-⟩ := position_of_reset (s := run step powerUp input n) hr
          have hnext : upcoming (position (step (run step powerUp input n) (input n))) = .idel := by
            simp [upcoming,hpoint,htaken]
          rw [hnext]
          exact logged_nil
      | false => exact Logged.step (operating_run input n) hr ih

theorem Logged.ordered_iff {next : Fsm} {l : List Sent} (h : Logged next l) :
    WellPaired l ∧ parse l ≠ none ↔ ∀ x ∈ l, x.1 ≠ .preCharg1 := by
  constructor
  · rintro ⟨-,hparse⟩
    cases he : early next with
    | true => exact (h.clean he).1
    | false => exact absurd (h.spoilt he).2 hparse
  · intro hnone
    refine ⟨fun before x after hl => (h.pairs before x after hl).mpr (hnone x (by simp [hl])),?_⟩
    cases he : early next with
    | true => simp [(h.clean he).2]
    | false =>
        obtain ⟨x,hx,hstate⟩ := (h.spoilt he).1
        exact absurd hstate (hnone x hx)

end FpgaTest.OledCommands
