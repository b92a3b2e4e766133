import FpgaTest.OledControl

/-!
# The display controller as a program of bytes

Without its delays and without the serial engine the controller runs a fixed
program: eleven commands, the address of a page, and from then on the columns of
one character after the other, with the address of the next page after every
sixteen. A `Position` in this program is the state to be served next, together
with the counters and whether the byte of the state has been taken. `Move` lists
what can happen to it, and `owed` is the list of bytes, with the data/command
line next to each, still to be taken before the program asks for a character.
Only `accept` adds to it.

`Placed` keeps the counters in step with the number of characters accepted.
-/
namespace FpgaTest.OledProgram
open CharRom OledControl

/-- A byte with the data/command line next to it. -/
abbrev Transfer := Bool × BitVec 8

structure Position where
  point : Fsm
  taken : Bool
  currPage : BitVec 2
  columnAddr : BitVec 8
  byteCounter : BitVec 4
  sendDone : Bool
  deriving DecidableEq, Repr

/-- The states that offer a byte. -/
def offers : Fsm → Bool
  | .idel | .delay | .reset | .waitSpi | .vbatOn | .done => false
  | _ => true

/-- The states between two delays that offer nothing. -/
def passes : Fsm → Bool
  | .idel | .reset | .vbatOn => true
  | _ => false

/-- The point after a state that offers nothing. -/
def passed : Fsm → Fsm
  | .idel => .init
  | .reset => .chargPump
  | .vbatOn => .contrast
  | st => st

namespace Position

/-- The byte offered at a point. -/
def byte (p : Position) (bitMap : BitVec 64) : BitVec 8 :=
  match p.point with
  | .init => 0xae
  | .chargPump => 0x8d
  | .chargPump1 => 0x14
  | .preCharg => 0xd9
  | .preCharg1 => 0xf1
  | .contrast => 0x81
  | .contrast1 => 0xff
  | .segRemap => 0xa0
  | .scanDir => 0xc0
  | .comPin => 0xda
  | .comPin1 => 0x00
  | .displayOn => 0xaf
  | .pageAddr => 0x22
  | .pageAddr1 | .pageAddr2 => p.currPage.setWidth 8
  | .columnAddr => 0x10
  | .sendData => column bitMap p.byteCounter.toNat
  | _ => 0

/-- Only the columns of a character are data. -/
def transfer (p : Position) (bitMap : BitVec 64) : Transfer :=
  (decide (p.point = .sendData),p.byte bitMap)

/-- The point after the byte of a point. -/
def follow (p : Position) : Fsm :=
  match p.point with
  | .init => .reset
  | .chargPump => .chargPump1
  | .chargPump1 | .preCharg => .preCharg1
  | .preCharg1 => .vbatOn
  | .contrast => .contrast1
  | .contrast1 => .segRemap
  | .segRemap => .scanDir
  | .scanDir => .comPin
  | .comPin => .comPin1
  | .comPin1 => .displayOn
  | .displayOn => .pageAddr
  | .pageAddr => .pageAddr1
  | .pageAddr1 => .pageAddr2
  | .pageAddr2 => .columnAddr
  | .columnAddr => .done
  | .sendData => if p.byteCounter = 1 then .done else .sendData
  | st => st

/-- The byte has been sent. -/
def advance (p : Position) : Position :=
  { p with
    point := p.follow
    taken := false
    currPage := if p.point = .pageAddr1 then p.currPage + 1 else p.currPage
    columnAddr := if p.point = .sendData then p.columnAddr + 1 else p.columnAddr
    byteCounter := if p.point = .sendData ∧ p.byteCounter ≠ 1 then p.byteCounter - 1
      else p.byteCounter }

/-- A character is on offer: send it, or address the next page first. -/
def accept (p : Position) : Position :=
  if p.columnAddr = 128 then { p with point := .pageAddr, columnAddr := 0, byteCounter := 8 }
  else { p with point := .sendData, byteCounter := 8 }

end Position

/-- What one clock can do to a position, and the byte taken at it. -/
inductive Move (i : Input) : Position → Position → Option Transfer → Prop
  | wait (p : Position) : Move i p p none
  | hold {p : Position} : p.point = .sendData → Move i p { p with sendDone := true } none
  | take {p : Position} : offers p.point = true → p.taken = false →
      Move i p { p with taken := true, sendDone := p.sendDone || decide (p.point = .sendData) }
        (some (p.transfer (glyph i.sendData)))
  | advance {p : Position} : offers p.point = true → p.taken = true → Move i p p.advance none
  | pass {p : Position} : passes p.point = true → p.taken = false →
      Move i p { p with point := passed p.point } none
  | accept {p : Position} : p.point = .done → p.taken = false → i.sendDataValid = true →
      p.sendDone = false → Move i p p.accept none
  | rest {p : Position} : p.point = .done → (i.sendDataValid = true → p.sendDone = true) →
      Move i p { p with sendDone := false } none

/-- The commands up to DISPLAY_ON. -/
def initCommands : List (BitVec 8) :=
  [0xae,0x8d,0x14,0xf1,0x81,0xff,0xa0,0xc0,0xda,0x00,0xaf]

/-- The address of a page. -/
def header (page : BitVec 2) : List Transfer :=
  [(false,0x22),(false,page.setWidth 8),(false,(page+1).setWidth 8),(false,0x10)]

/-- The last `k` columns of a glyph. -/
def columns (bitMap : BitVec 64) : ℕ → List Transfer
  | 0 => []
  | k+1 => (true,column bitMap (k+1)) :: columns bitMap k

/-- The commands from number `k` on and the address of the first page. -/
def commandsFrom (page : BitVec 2) (k : ℕ) : List Transfer :=
  (initCommands.drop k).map (fun b => (false,b)) ++ header page

namespace Position

/-- What is sent from a point on, up to DONE. -/
def toGo (p : Position) (bitMap : BitVec 64) : List Transfer :=
  match p.point with
  | .idel | .init => commandsFrom p.currPage 0
  | .reset | .chargPump => commandsFrom p.currPage 1
  | .chargPump1 => commandsFrom p.currPage 2
  | .preCharg => (false,0xd9) :: commandsFrom p.currPage 3
  | .preCharg1 => commandsFrom p.currPage 3
  | .vbatOn | .contrast => commandsFrom p.currPage 4
  | .contrast1 => commandsFrom p.currPage 5
  | .segRemap => commandsFrom p.currPage 6
  | .scanDir => commandsFrom p.currPage 7
  | .comPin => commandsFrom p.currPage 8
  | .comPin1 => commandsFrom p.currPage 9
  | .displayOn => commandsFrom p.currPage 10
  | .pageAddr => header p.currPage
  | .pageAddr1 => (header p.currPage).drop 1
  | .pageAddr2 => [(false,p.currPage.setWidth 8),(false,0x10)]
  | .columnAddr => [(false,0x10)]
  | .sendData => columns bitMap p.byteCounter.toNat
  | .done | .delay | .waitSpi => []

/-- What has yet to be taken up to DONE. -/
def owed (p : Position) (bitMap : BitVec 64) : List Transfer :=
  if p.taken then (p.toGo bitMap).tail else p.toGo bitMap

/-- SEND_DATA has between one and eight columns to go. -/
def Counted (p : Position) : Prop :=
  p.point = .sendData → 1 ≤ p.byteCounter.toNat ∧ p.byteCounter.toNat ≤ 8

theorem byteCounter_pred {c : BitVec 4} (h : 1 ≤ c.toNat) : (c-1).toNat + 1 = c.toNat := by
  bv_omega

theorem byteCounter_eq_one {c : BitVec 4} : c = 1 ↔ c.toNat = 1 := by
  bv_omega

/-- The byte of a point is the first that is to go, and the rest is to go at the
next point. -/
theorem toGo_eq_cons {p : Position} (bitMap : BitVec 64) (ho : offers p.point = true)
    (hc : p.Counted) : p.toGo bitMap = p.transfer bitMap :: p.advance.toGo bitMap := by
  by_cases hs : p.point = .sendData
  · obtain ⟨hpos,-⟩ := hc hs
    have hpred := byteCounter_pred hpos
    by_cases h1 : p.byteCounter = 1
    · simp [toGo,transfer,byte,advance,follow,hs,h1,columns]
    · simp only [toGo,transfer,byte,advance,follow,hs,h1,if_false,decide_true,ne_eq,
        not_false_eq_true,and_self,if_true]
      rw [← hpred]
      rfl
  · cases hp : p.point <;> rw [hp] at ho hs <;> first
      | contradiction
      | simp [toGo,transfer,byte,advance,follow,hp,commandsFrom,initCommands,header]

theorem toGo_passed {p : Position} (bitMap : BitVec 64) (h : passes p.point = true) :
    { p with point := passed p.point }.toGo bitMap = p.toGo bitMap := by
  cases hp : p.point <;> rw [hp] at h <;> first
    | contradiction
    | simp [toGo,hp,passed]

theorem transfer_of_ne {p : Position} (b b' : BitVec 64) (h : p.point ≠ .sendData) :
    p.transfer b = p.transfer b' := by
  cases hp : p.point <;> first
    | contradiction
    | simp [transfer,byte,hp]

theorem owed_of_ne {p : Position} (b b' : BitVec 64) (h : p.point ≠ .sendData) :
    p.owed b = p.owed b' := by
  cases hp : p.point <;> first
    | contradiction
    | simp [owed,toGo,hp]

theorem accept_point (p : Position) : p.accept.point ≠ .done := by
  unfold accept
  split <;> simp

theorem owed_of_done {p : Position} (bitMap : BitVec 64) (h : p.point = .done) :
    p.owed bitMap = [] := by
  simp [owed,toGo,h]

end Position

/-- The moves other than `accept`: the byte taken is the first one owed. -/
theorem owed_move {i : Input} {p p' : Position} {x : Option Transfer} {bitMap : BitVec 64}
    (h : Move i p p' x) (hc : p.Counted)
    (hb : p.point = .sendData → bitMap = glyph i.sendData)
    (hdone : p.point = .done → p'.point = .done) :
    x.toList ++ p'.owed bitMap = p.owed bitMap := by
  cases h with
  | wait | hold => rfl
  | take ho ht =>
      have hx : p.transfer (glyph i.sendData) = p.transfer bitMap := by
        by_cases hs : p.point = .sendData
        · rw [hb hs]
        · exact p.transfer_of_ne _ _ hs
      have hgo := p.toGo_eq_cons bitMap ho hc
      have htail : (p.toGo bitMap).tail = p.advance.toGo bitMap := by rw [hgo]; rfl
      simp only [Position.owed,ht,Bool.false_eq_true,if_false,if_true,Option.toList_some,hx]
      exact (congrArg (p.transfer bitMap :: ·) htail).trans hgo.symm
  | advance ho ht =>
      have hgo := p.toGo_eq_cons bitMap ho hc
      simp only [Position.owed,ht,if_true,hgo,List.tail_cons,Option.toList_none,List.nil_append]
      rfl
  | pass hp ht =>
      have hgo := p.toGo_passed bitMap hp
      simp only [ht] at hgo
      simp only [Position.owed,ht,Bool.false_eq_true,if_false,hgo,Option.toList_none,
        List.nil_append]
  | accept hp => exact absurd (hdone hp) p.accept_point
  | rest hp => simp [Position.owed,Position.toGo,hp]

section
variable {i : Input} {p p' : Position} {x : Option Transfer}

theorem follow_ne_sendData (h : p.point ≠ .sendData) : p.follow ≠ .sendData := by
  cases hp : p.point <;> simp_all [Position.follow]

/-- Up to DONE nothing happens to the character on offer. -/
theorem Move.unsent (h : Move i p p' x) (hp : p.point ≠ .sendData) (hd : p.sendDone = false) :
    (p'.point ≠ .sendData ∧ p'.sendDone = false ∧ (p.point = .done → p'.point = .done)) ∨
      (i.sendDataValid = true ∧ p.point = .done ∧ p.taken = false ∧ p' = p.accept ∧ x = none) := by
  cases h with
  | wait => exact .inl ⟨hp,hd,id⟩
  | hold hs => exact absurd hs hp
  | take => exact .inl ⟨hp,by simp [hd,hp],id⟩
  | advance ho =>
      refine .inl ⟨follow_ne_sendData hp,hd,fun hdone => ?_⟩
      rw [hdone] at ho
      contradiction
  | pass hpass =>
      refine .inl ⟨?_,hd,fun hdone => ?_⟩
      · cases hs : p.point <;> rw [hs] at hpass <;> simp_all [passes,passed]
      · rw [hdone] at hpass
        contradiction
  | accept hdone ht hv => exact .inr ⟨hv,hdone,ht,rfl,rfl⟩
  | rest hdone => exact .inl ⟨hp,rfl,id⟩

theorem Move.columnAddr_zero (h : Move i p p' x) (hp : p.point ≠ .sendData)
    (hcol : p.columnAddr = 0) : p'.columnAddr = 0 := by
  cases h with
  | wait | hold | take | pass | rest => exact hcol
  | advance => simp [Position.advance,hp,hcol]
  | accept => simp [Position.accept,hcol]

theorem follow_of_sendData (h : p.point = .sendData) :
    p.follow = .sendData ∨ p.follow = .done := by
  simp only [Position.follow,h]
  split <;> simp

/-- `sendDone` is raised before the first column is taken and stays. -/
theorem Move.sending (h : Move i p p' x) (hp : p.point = .sendData)
    (ht : p.sendDone = false → p.taken = false) :
    (p.sendDone = false → p'.point = .sendData ∧ (p'.sendDone = false → p'.taken = false)) ∧
      (p.sendDone = true →
        p'.sendDone = true ∧ (p'.point = .sendData ∨ p'.point = .done)) := by
  cases h with
  | wait => exact ⟨fun _ => ⟨hp,ht⟩,fun hd => ⟨hd,.inl hp⟩⟩
  | hold => exact ⟨fun _ => ⟨hp,by simp⟩,fun _ => ⟨rfl,.inl hp⟩⟩
  | take => exact ⟨fun _ => ⟨hp,by simp [hp]⟩,fun hd => ⟨by simp [hd],.inl hp⟩⟩
  | advance _ htaken =>
      refine ⟨fun hd => ?_,fun hd => ⟨hd,follow_of_sendData hp⟩⟩
      rw [ht hd] at htaken
      contradiction
  | pass hpass => simp [hp,passes] at hpass
  | accept hdone => simp [hp] at hdone
  | rest hdone => simp [hp] at hdone

theorem Move.point_of_sendData (h : Move i p p' x) (hp : p.point = .sendData) :
    p'.point = .sendData ∨ p'.point = .done := by
  cases h with
  | wait | hold | take => exact .inl hp
  | advance => exact follow_of_sendData hp
  | pass hpass => simp [hp,passes] at hpass
  | accept hdone | rest hdone => simp [hp] at hdone

theorem Move.counted (h : Move i p p' x) (hp : p.point = .sendData) (hc : p.Counted) :
    p'.Counted := by
  cases h with
  | wait | hold | take => exact hc
  | advance =>
      intro hp'
      obtain ⟨hpos,hle⟩ := hc hp
      have hpred := Position.byteCounter_pred hpos
      have hne : p.byteCounter ≠ 1 := by
        intro h1
        simp [Position.advance,Position.follow,hp,h1] at hp'
      have hcount : p.byteCounter.toNat ≠ 1 := fun h => hne (Position.byteCounter_eq_one.mpr h)
      simp only [Position.advance,hp,hne,ne_eq,not_false_eq_true,and_self,if_true]
      omega
  | pass hpass => simp [hp,passes] at hpass
  | accept hdone | rest hdone => simp [hp] at hdone

theorem Move.resting (h : Move i p p' x) (hp : p.point = .done) (hv : i.sendDataValid = false) :
    p'.point = .done := by
  cases h with
  | wait | rest => exact hp
  | hold hs => simp [hp] at hs
  | take ho | advance ho => simp [hp,offers] at ho
  | pass hpass => simp [hp,passes] at hpass
  | accept _ _ hv' => rw [hv] at hv'; contradiction

end

/-- What goes before character number `k`. -/
def opener (k : ℕ) : List Transfer := if k % 16 = 0 then header (BitVec.ofNat 2 (k/16)) else []

/-- Everything up to the last column of the first `k` characters. -/
def written (chars : ℕ → BitVec 7) : ℕ → List Transfer
  | 0 => initCommands.map fun b => (false,b)
  | k+1 => written chars k ++ opener k ++ columns (glyph (chars k)) 8

/-- The points at which the current page has not been addressed yet. -/
def unaddressed : Fsm → Bool
  | .delay | .waitSpi | .pageAddr2 | .columnAddr | .sendData | .done => false
  | _ => true

/-- The counters, and all that has been taken or is owed, after `k` characters. -/
inductive Placed (chars : ℕ → BitVec 7) (k : ℕ) (p : Position) : List Transfer → Prop
  | opening : unaddressed p.point = true → p.columnAddr = 0 → k % 16 = 0 →
      p.currPage = BitVec.ofNat 2 (k/16) → Placed chars k p (written chars k ++ opener k)
  | opened : p.point = .pageAddr2 ∨ p.point = .columnAddr ∨ p.point = .done → p.columnAddr = 0 →
      k % 16 = 0 → p.currPage = BitVec.ofNat 2 (k/16) + 1 →
      Placed chars k p (written chars k ++ opener k)
  | sending : p.point = .sendData → 1 ≤ p.byteCounter.toNat → p.byteCounter.toNat ≤ 8 → 0 < k →
      p.columnAddr.toNat + p.byteCounter.toNat = 8*((k-1)%16)+8 →
      p.currPage = BitVec.ofNat 2 ((k-1)/16) + 1 → Placed chars k p (written chars k)
  | sent : p.point = .done → 0 < k → p.columnAddr.toNat = 8*((k-1)%16)+8 →
      p.currPage = BitVec.ofNat 2 ((k-1)/16) + 1 → Placed chars k p (written chars k)

variable {chars : ℕ → BitVec 7} {k : ℕ} {p p' : Position} {l : List Transfer}

theorem Placed.counted (h : Placed chars k p l) : p.Counted := by
  intro hs
  cases h with
  | opening ho => simp [hs,unaddressed] at ho
  | opened ho => simp [hs] at ho
  | sending _ h1 h8 => exact ⟨h1,h8⟩
  | sent hd => simp [hs] at hd

theorem Placed.congr (h : Placed chars k p l) (hp : p'.point = p.point)
    (hcol : p'.columnAddr = p.columnAddr) (hpage : p'.currPage = p.currPage)
    (hb : p'.byteCounter = p.byteCounter) : Placed chars k p' l := by
  cases h with
  | opening h1 h2 h3 h4 => exact .opening (hp ▸ h1) (hcol.trans h2) h3 (hpage.trans h4)
  | opened h1 h2 h3 h4 => exact .opened (hp ▸ h1) (hcol.trans h2) h3 (hpage.trans h4)
  | sending h1 h2 h3 h4 h5 h6 =>
      exact .sending (hp.trans h1) (hb ▸ h2) (hb ▸ h3) h4 (hcol ▸ hb ▸ h5) (hpage.trans h6)
  | sent h1 h2 h3 h4 => exact .sent (hp.trans h1) h2 (hcol ▸ h3) (hpage.trans h4)

theorem unaddressed_follow (h : unaddressed p.point = true) (ho : offers p.point = true)
    (hn : p.point ≠ .pageAddr1) : unaddressed p.follow = true := by
  cases hp : p.point <;> simp_all [unaddressed,offers,Position.follow]

theorem Placed.advance_sending (hp : p.point = .sendData) (h1 : 1 ≤ p.byteCounter.toNat)
    (h8 : p.byteCounter.toNat ≤ 8) (hk : 0 < k)
    (hcol : p.columnAddr.toNat + p.byteCounter.toNat = 8*((k-1)%16)+8)
    (hpage : p.currPage = BitVec.ofNat 2 ((k-1)/16) + 1) :
    Placed chars k p.advance (written chars k) := by
  have hmod := Nat.mod_lt (k-1) (show 0 < 16 by decide)
  have hnext : (p.columnAddr+1).toNat = p.columnAddr.toNat+1 := by bv_omega
  have hpage' : p.advance.currPage = BitVec.ofNat 2 ((k-1)/16) + 1 := by
    simp [Position.advance,hp,hpage]
  have hcol' : p.advance.columnAddr = p.columnAddr+1 := by simp [Position.advance,hp]
  by_cases hone : p.byteCounter = 1
  · have := Position.byteCounter_eq_one.mp hone
    refine .sent (by simp [Position.advance,Position.follow,hp,hone]) hk ?_ hpage'
    rw [hcol',hnext]
    omega
  · have hpred := Position.byteCounter_pred h1
    have hb : p.advance.byteCounter = p.byteCounter-1 := by
      simp only [Position.advance,hp,hone,ne_eq,not_false_eq_true,and_self,if_true]
    have h2 : p.byteCounter.toNat ≠ 1 := fun h => hone (Position.byteCounter_eq_one.mpr h)
    refine .sending ?_ ?_ ?_ hk ?_ hpage'
    · simp only [Position.advance,Position.follow,hp,hone,if_false]
    · rw [hb]; omega
    · rw [hb]; omega
    · rw [hcol',hnext,hb]; omega

theorem Placed.advance (h : Placed chars k p l) (ho : offers p.point = true) :
    Placed chars k p.advance l := by
  cases h with
  | opening hop hcol hk hpage =>
      have hs : p.point ≠ .sendData := by
        intro hs
        simp [hs,unaddressed] at hop
      by_cases h1 : p.point = .pageAddr1
      · refine .opened (.inl ?_) ?_ hk ?_
        · simp [Position.advance,Position.follow,h1]
        · simp [Position.advance,h1,hcol]
        · simp [Position.advance,h1,hpage]
      · refine .opening (unaddressed_follow hop ho h1) ?_ hk ?_
        · simp [Position.advance,hs,hcol]
        · simp [Position.advance,h1,hpage]
  | opened hp hcol hk hpage =>
      rcases hp with hp | hp | hp
      · exact .opened (.inr (.inl (by simp [Position.advance,Position.follow,hp])))
          (by simp [Position.advance,hp,hcol]) hk (by simp [Position.advance,hp,hpage])
      · exact .opened (.inr (.inr (by simp [Position.advance,Position.follow,hp])))
          (by simp [Position.advance,hp,hcol]) hk (by simp [Position.advance,hp,hpage])
      · simp [hp,offers] at ho
  | sending hp h1 h8 hk hcol hpage => exact .advance_sending hp h1 h8 hk hcol hpage
  | sent hp => simp [hp,offers] at ho

theorem Placed.passed (h : Placed chars k p l) (hp : passes p.point = true) :
    Placed chars k { p with point := passed p.point } l := by
  have hop : unaddressed p.point = true ∧ unaddressed (OledProgram.passed p.point) = true := by
    cases hs : p.point <;> simp_all [passes,unaddressed,OledProgram.passed]
  cases h with
  | opening _ h2 h3 h4 => exact .opening hop.2 h2 h3 h4
  | opened h1 => rcases h1 with h1 | h1 | h1 <;> simp [h1,passes] at hp
  | sending h1 => simp [h1,passes] at hp
  | sent h1 => simp [h1,passes] at hp

theorem Placed.move {i : Input} {x : Option Transfer} {bitMap : BitVec 64}
    (h : Placed chars k p (l ++ p.owed bitMap)) (hm : Move i p p' x)
    (hb : p.point = .sendData → bitMap = glyph i.sendData)
    (hdone : p.point = .done → p'.point = .done) :
    Placed chars k p' (l ++ x.toList ++ p'.owed bitMap) := by
  rw [List.append_assoc,owed_move hm h.counted hb hdone]
  cases hm with
  | wait => exact h
  | hold | take | rest => exact h.congr rfl rfl rfl rfl
  | advance ho => exact h.advance ho
  | pass hp => exact h.passed hp
  | accept hp => exact absurd (hdone hp) p.accept_point

theorem ofNat_page (hk : 0 < k) (h : k % 16 = 0) :
    BitVec.ofNat 2 ((k-1)/16) + 1 = BitVec.ofNat 2 (k/16) := by
  have hdiv : k/16 = (k-1)/16+1 := by omega
  rw [hdiv,BitVec.ofNat_add]
  rfl

theorem owed_of_sendData {p : Position} (bitMap : BitVec 64) (hp : p.point = .sendData)
    (ht : p.taken = false) (hb : p.byteCounter = 8) : p.owed bitMap = columns bitMap 8 := by
  simp [Position.owed,Position.toGo,hp,ht,hb]

/-- A full page: the next one is addressed first. -/
theorem Placed.accept_page (h : Placed chars k p l) (hp : p.point = .done) (ht : p.taken = false)
    (hcol : p.columnAddr = 128) (bitMap : BitVec 64) :
    Placed chars k p.accept (l ++ p.accept.owed bitMap) := by
  have hmod := Nat.mod_lt (k-1) (show 0 < 16 by decide)
  have haccept : p.accept = { p with point := .pageAddr, columnAddr := 0, byteCounter := 8 } := by
    simp only [Position.accept,hcol,if_true]
  have hcol' : p.columnAddr.toNat = 128 := by rw [hcol]; rfl
  cases h with
  | opening hop => simp [hp,unaddressed] at hop
  | opened _ h0 => simp [hcol] at h0
  | sending hs => simp [hp] at hs
  | sent _ hk hc hpage =>
      have hk16 : k % 16 = 0 := by omega
      rw [ofNat_page hk hk16] at hpage
      have howed : p.accept.owed bitMap = opener k := by
        simp [haccept,Position.owed,Position.toGo,ht,opener,hk16,hpage]
      rw [howed]
      exact .opening (by rw [haccept]; rfl) (by rw [haccept]) hk16 (by rw [haccept]; exact hpage)

/-- Room on the page: the character on offer is sent. -/
theorem Placed.accept_character (h : Placed chars k p l) (hp : p.point = .done)
    (ht : p.taken = false) (hcol : p.columnAddr ≠ 128) :
    Placed chars (k+1) p.accept (l ++ p.accept.owed (glyph (chars k))) := by
  have hmod := Nat.mod_lt (k-1) (show 0 < 16 by decide)
  have haccept : p.accept = { p with point := .sendData, byteCounter := 8 } := by
    simp only [Position.accept,hcol,if_false]
  have h8 : (8 : BitVec 4).toNat = 8 := rfl
  have hcol' : p.columnAddr.toNat ≠ 128 := fun h => hcol (BitVec.eq_of_toNat_eq h)
  rw [owed_of_sendData _ (by rw [haccept]) (by rw [haccept]; exact ht) (by rw [haccept])]
  cases h with
  | opening hop => simp [hp,unaddressed] at hop
  | opened _ h0 hk hpage =>
      refine .sending (by rw [haccept]) ?_ ?_ k.succ_pos ?_ (by rw [haccept]; exact hpage)
      · simp [haccept]
      · simp [haccept]
      · simp [haccept,h0,hk]
  | sending hs => simp [hp] at hs
  | sent _ hk hc hpage =>
      have hk16 : k % 16 ≠ 0 := by omega
      have hdiv : (k-1)/16 = k/16 := by omega
      have hl : written chars k ++ columns (glyph (chars k)) 8 = written chars (k+1) := by
        simp [written,opener,hk16]
      rw [hl]
      rw [hdiv] at hpage
      refine .sending (by rw [haccept]) ?_ ?_ k.succ_pos ?_ (by rw [haccept]; exact hpage)
      · simp [haccept]
      · simp [haccept]
      · simp only [haccept,hc,h8]
        omega

end FpgaTest.OledProgram
