import FpgaTest.XdmaRequest

/-!
# A transfer in the descriptor ring

`transfer_init` takes the next pieces of a request and writes them as a chain
of descriptors into the ring of the engine, starting where the last transfer
ended and never past the end of the ring. The engine is given the bus address
of the first descriptor and follows the next pointers; with every pointer it is
told how many more descriptors stand right behind the next one, so that it can
fetch them together.
-/
namespace FpgaTest.XdmaTransfer
open ByteCopies XdmaRequest

inductive Direction where
  | toDevice | fromDevice
  deriving DecidableEq, Repr

/-- `struct xdma_desc`. -/
structure Desc where
  control : BitVec 32
  bytes : BitVec 32
  srcAddrLo : BitVec 32
  srcAddrHi : BitVec 32
  dstAddrLo : BitVec 32
  dstAddrHi : BitVec 32
  nextLo : BitVec 32
  nextHi : BitVec 32
  deriving DecidableEq, Repr

def pciDmaL (addr : BitVec 64) : BitVec 32 := addr.setWidth 32

def pciDmaH (addr : BitVec 64) : BitVec 32 := ((addr >>> 16) >>> 16).setWidth 32

def descMagic : BitVec 32 := 0xAD4B0000#32
def descStopped : BitVec 32 := 0x01#32
def descCompleted : BitVec 32 := 0x02#32
def descEop : BitVec 32 := 0x10#32
def maxAdjBlockSize : ℕ := 0x40

/-- The size of a descriptor in the ring. -/
abbrev descSize : ℕ := 32

/-- What is fixed when the engine is set up. The ring is coherent memory in one
piece. -/
structure Channel where
  descBus : BitVec 64
  descMax : ℕ
  dir : Direction
  nonIncrAddr : Bool
  aligned : descBus.toNat % descSize = 0
  inRange : descBus.toNat + descSize*descMax ≤ 2^64

/-- The bus address of a slot. -/
def Channel.bus (c : Channel) (slot : ℕ) : BitVec 64 :=
  c.descBus + BitVec.ofNat 64 (descSize*slot)

structure Engine (c : Channel) where
  desc : ℕ → Desc
  descIdx : Fin c.descMax
  descUsed : ℕ

structure Xfer where
  descIndex : ℕ
  descBus : BitVec 64
  descNum : ℕ
  len : ℕ
  deriving Repr

def xdmaGetNextAdj (remaining : ℕ) (nextLo : BitVec 32) : ℕ :=
  if remaining ≤ 1 then 0
  else
    min (maxAdjBlockSize - ((nextLo &&& 0xfff#32) >>> 5).toNat % maxAdjBlockSize - 1)
      (remaining - 1)

def xdmaDescAdjacent (d : Desc) (nextAdjacent : ℕ) : Desc :=
  { d with
    control := d.control &&& 0x0000f0ff#32 |||
      (descMagic ||| BitVec.ofNat 32 nextAdjacent <<< 8) }

/-- The caller passes a control field of one byte. -/
def xdmaDescControlSet (d : Desc) (controlField : BitVec 32) : Desc :=
  { d with control := d.control &&& ~~~0xff#32 ||| controlField }

def xdmaDescSet (dir : Direction) (d : Desc) (rcBusAddr epAddr : BitVec 64) (len : ℕ) : Desc :=
  match dir with
  | .toDevice =>
      { d with
        bytes := BitVec.ofNat 32 len
        srcAddrLo := pciDmaL rcBusAddr, srcAddrHi := pciDmaH rcBusAddr
        dstAddrLo := pciDmaL epAddr, dstAddrHi := pciDmaH epAddr }
  | .fromDevice =>
      { d with
        bytes := BitVec.ofNat 32 len
        srcAddrLo := pciDmaL epAddr, srcAddrHi := pciDmaH epAddr
        dstAddrLo := pciDmaL rcBusAddr, dstAddrHi := pciDmaH rcBusAddr }

def chained (d : Desc) (next : BitVec 64) : Desc :=
  { d with nextLo := pciDmaL next, nextHi := pciDmaH next, bytes := 0, control := descMagic }

/-- The loop of `transfer_desc_init`; the last descriptor points nowhere. -/
def linkDescs (desc : ℕ → Desc) (slot : ℕ) (bus : BitVec 64) : ℕ → ℕ → Desc
  | 0 => Function.update desc slot (chained (desc slot) 0)
  | n+1 =>
      linkDescs
        (Function.update desc slot (chained (desc slot) (bus + BitVec.ofNat 64 descSize)))
        (slot+1) (bus + BitVec.ofNat 64 descSize) n

def transferDescInit (desc : ℕ → Desc) (slot : ℕ) (bus : BitVec 64) (count : ℕ) : ℕ → Desc :=
  linkDescs desc slot bus (count-1)

def Channel.advance (c : Channel) (epAddr : BitVec 64) (len : ℕ) : BitVec 64 :=
  if c.nonIncrAddr then epAddr else epAddr + BitVec.ofNat 64 len

/-- The loop of `transfer_build`: the descriptors, the device address behind the
last piece and the length of all of them. -/
def transferBuild (c : Channel) :
    List SwDesc → (ℕ → Desc) → ℕ → BitVec 64 → ℕ → (ℕ → Desc) × BitVec 64 × ℕ
  | [], desc, _, epAddr, len => (desc,epAddr,len)
  | s::ss, desc, slot, epAddr, len =>
      transferBuild c ss
        (Function.update desc slot (xdmaDescSet c.dir (desc slot) s.addr epAddr s.len))
        (slot+1) (c.advance epAddr s.len) ((len + s.len) % 2^32)

/-- The last loop of `transfer_init`; the counter is the number of descriptors
from `slot` on. -/
def fillAdjacent (desc : ℕ → Desc) (slot : ℕ) : ℕ → ℕ → Desc
  | 0 => desc
  | n+1 =>
      fillAdjacent
        (Function.update desc slot
          (xdmaDescAdjacent (desc slot) (xdmaGetNextAdj n (desc slot).nextLo)))
        (slot+1) n

/-- The descriptors of the next transfer: as many as are left, but none behind
the end of the ring. -/
def descCount {c : Channel} (e : Engine c) (req : Request) : ℕ :=
  let descMax := min (req.sdesc.length - req.swDescIdx) c.descMax
  if c.descMax ≤ e.descIdx + descMax then c.descMax - e.descIdx else descMax

/-- The pieces of the next transfer. -/
def taken {c : Channel} (e : Engine c) (req : Request) : List SwDesc :=
  (req.sdesc.drop req.swDescIdx).take (descCount e req)

def transferInit {c : Channel} (e : Engine c) (req : Request) : Engine c × Request × Xfer :=
  let count := descCount e req
  let bus := c.bus e.descIdx
  let desc := transferDescInit e.desc e.descIdx bus count
  let built := transferBuild c (taken e req) desc e.descIdx req.epAddr 0
  let last := e.descIdx + (count-1)
  let control := descStopped ||| descEop ||| descCompleted
  let desc := Function.update built.1 last (xdmaDescControlSet (built.1 last) control)
  ({ desc := fillAdjacent desc e.descIdx count
     descIdx := ⟨(e.descIdx + count) % c.descMax,Nat.mod_lt _ e.descIdx.pos⟩
     descUsed := e.descUsed + count },
    { req with swDescIdx := req.swDescIdx + count, epAddr := built.2.1 },
    { descIndex := e.descIdx, descBus := bus, descNum := count, len := built.2.2 })

namespace Desc

def src (d : Desc) : BitVec 64 := d.srcAddrHi ++ d.srcAddrLo

def dst (d : Desc) : BitVec 64 := d.dstAddrHi ++ d.dstAddrLo

def next (d : Desc) : BitVec 64 := d.nextHi ++ d.nextLo

def Valid (d : Desc) : Prop := d.control >>> 16 = 0xad4b#32

instance (d : Desc) : Decidable d.Valid := inferInstanceAs (Decidable (_ = _))

def stopped (d : Desc) : Bool := d.control.getLsbD 0

/-- How many descriptors follow the next one without a gap. -/
def adjacent (d : Desc) : ℕ := ((d.control >>> 8) &&& 0x3f#32).toNat

end Desc

structure Copy where
  src : BitVec 64
  dst : BitVec 64
  len : ℕ
  deriving DecidableEq, Repr

/-- The bytes of a copy. -/
def Copy.bytes (k : Copy) : List (BitVec 64 × BitVec 64) :=
  (span k.src k.len).zip (span k.dst k.len)

def Desc.copy (d : Desc) : Copy := ⟨d.src,d.dst,d.bytes.toNat⟩

/-- The descriptor of the ring at a bus address. -/
def Engine.fetch {c : Channel} (e : Engine c) (addr : BitVec 64) : Option Desc :=
  let offset := (addr - c.descBus).toNat
  if offset % descSize = 0 ∧ offset/descSize < c.descMax then some (e.desc (offset/descSize))
  else none

/-- The copies met from an address on, up to a descriptor that stops the engine. -/
inductive Chain (fetch : BitVec 64 → Option Desc) : BitVec 64 → List Copy → Prop
  | last {addr : BitVec 64} {d : Desc} : fetch addr = some d → d.Valid → d.stopped = true →
      Chain fetch addr [d.copy]
  | next {addr : BitVec 64} {d : Desc} {copies : List Copy} : fetch addr = some d → d.Valid →
      d.stopped = false → Chain fetch d.next copies → Chain fetch addr (d.copy::copies)

theorem Chain.unique {fetch : BitVec 64 → Option Desc} {addr : BitVec 64} {cs ds : List Copy}
    (h : Chain fetch addr cs) (h' : Chain fetch addr ds) : cs = ds := by
  induction h generalizing ds with
  | last hf _ hs =>
      cases h' with
      | last hf' _ _ =>
          rw [hf] at hf'
          cases hf'
          rfl
      | next hf' _ hs' _ =>
          rw [hf] at hf'
          cases hf'
          rw [hs] at hs'
          contradiction
  | next hf _ hs _ ih =>
      cases h' with
      | last hf' _ hs' =>
          rw [hf] at hf'
          cases hf'
          rw [hs] at hs'
          contradiction
      | next hf' _ _ hrest =>
          rw [hf] at hf'
          cases hf'
          rw [ih hrest]

theorem pciDma_append (addr : BitVec 64) : pciDmaH addr ++ pciDmaL addr = addr := by
  apply BitVec.eq_of_getLsbD_eq
  intro i hi
  rw [BitVec.getLsbD_append]
  by_cases hlow : i < 32
  · simp [pciDmaL,hlow]
  · simp [pciDmaH,hlow,show i-32 < 32 by omega]
    congr 1
    omega

theorem linkDescs_outside (desc : ℕ → Desc) (slot : ℕ) (bus : BitVec 64) (n : ℕ) {s : ℕ}
    (h : s < slot ∨ slot+n < s) : linkDescs desc slot bus n s = desc s := by
  induction n generalizing desc slot bus with
  | zero => exact Function.update_of_ne (by omega) _ _
  | succ n ih => rw [linkDescs,ih _ _ _ (by omega),Function.update_of_ne (by omega)]

theorem linkDescs_inside (desc : ℕ → Desc) (slot : ℕ) (bus : BitVec 64) (n : ℕ) {i : ℕ}
    (hi : i ≤ n) : linkDescs desc slot bus n (slot+i) = chained (desc (slot+i))
      (if i < n then bus + BitVec.ofNat 64 (descSize*(i+1)) else 0) := by
  induction n generalizing desc slot bus i with
  | zero =>
      obtain rfl : i = 0 := by omega
      rw [linkDescs,if_neg (Nat.lt_irrefl 0)]
      exact Function.update_self _ _ _
  | succ n ih =>
      rw [linkDescs]
      cases i with
      | zero =>
          rw [linkDescs_outside _ _ _ _ (by omega),if_pos (Nat.succ_pos n)]
          exact Function.update_self _ _ _
      | succ i =>
          have hslot : slot+(i+1) = slot+1+i := by omega
          rw [hslot,ih _ _ _ (by omega),Function.update_of_ne (by omega)]
          simp only [Nat.succ_lt_succ_iff]
          congr 2
          rw [BitVec.add_assoc,← BitVec.ofNat_add]
          congr 2
          ring

/-- The device address behind the given pieces. -/
def Channel.advanceAll (c : Channel) (epAddr : BitVec 64) (ss : List SwDesc) : BitVec 64 :=
  ss.foldl (fun ep s => c.advance ep s.len) epAddr

variable {c : Channel}

theorem transferBuild_outside (ss : List SwDesc) (desc : ℕ → Desc) (slot : ℕ)
    (epAddr : BitVec 64) (len : ℕ) {s : ℕ} (h : s < slot ∨ slot+ss.length ≤ s) :
    (transferBuild c ss desc slot epAddr len).1 s = desc s := by
  induction ss generalizing desc slot epAddr len with
  | nil => rfl
  | cons p ss ih =>
      rw [List.length_cons] at h
      rw [transferBuild,ih _ _ _ _ (by omega),Function.update_of_ne (by omega)]

theorem transferBuild_inside (ss : List SwDesc) (desc : ℕ → Desc) (slot : ℕ)
    (epAddr : BitVec 64) (len : ℕ) {i : ℕ} (hi : i < ss.length) :
    (transferBuild c ss desc slot epAddr len).1 (slot+i) =
      xdmaDescSet c.dir (desc (slot+i)) ss[i].addr (c.advanceAll epAddr (ss.take i)) ss[i].len := by
  induction ss generalizing desc slot epAddr len i with
  | nil => exact absurd hi (Nat.not_lt_zero i)
  | cons p ss ih =>
      rw [transferBuild]
      cases i with
      | zero =>
          rw [transferBuild_outside _ _ _ _ _ (by omega)]
          exact Function.update_self _ _ _
      | succ i =>
          have hslot : slot+(i+1) = slot+1+i := by omega
          rw [hslot,ih _ _ _ _ (Nat.lt_of_succ_lt_succ hi),Function.update_of_ne (by omega)]
          rfl

theorem transferBuild_epAddr (ss : List SwDesc) (desc : ℕ → Desc) (slot : ℕ)
    (epAddr : BitVec 64) (len : ℕ) :
    (transferBuild c ss desc slot epAddr len).2.1 = c.advanceAll epAddr ss := by
  induction ss generalizing desc slot epAddr len with
  | nil => rfl
  | cons p ss ih => exact ih _ _ _ _

theorem transferBuild_len (ss : List SwDesc) (desc : ℕ → Desc) (slot : ℕ)
    (epAddr : BitVec 64) (len : ℕ) (hlen : len < 2^32) :
    (transferBuild c ss desc slot epAddr len).2.2 =
      (len + (ss.map SwDesc.len).sum) % 2^32 := by
  induction ss generalizing desc slot epAddr len with
  | nil => exact (Nat.mod_eq_of_lt hlen).symm
  | cons p ss ih =>
      rw [transferBuild,ih _ _ _ _ (Nat.mod_lt _ (by norm_num)),Nat.mod_add_mod,List.map_cons,
        List.sum_cons,Nat.add_assoc]

theorem fillAdjacent_outside (desc : ℕ → Desc) (slot n : ℕ) {s : ℕ}
    (h : s < slot ∨ slot+n ≤ s) : fillAdjacent desc slot n s = desc s := by
  induction n generalizing desc slot with
  | zero => rfl
  | succ n ih => rw [fillAdjacent,ih _ _ (by omega),Function.update_of_ne (by omega)]

theorem fillAdjacent_inside (desc : ℕ → Desc) (slot n : ℕ) {i : ℕ} (hi : i < n) :
    fillAdjacent desc slot n (slot+i) = xdmaDescAdjacent (desc (slot+i))
      (xdmaGetNextAdj (n-i-1) (desc (slot+i)).nextLo) := by
  induction n generalizing desc slot i with
  | zero => exact absurd hi (Nat.not_lt_zero i)
  | succ n ih =>
      rw [fillAdjacent]
      cases i with
      | zero =>
          rw [fillAdjacent_outside _ _ _ (by omega)]
          exact Function.update_self _ _ _
      | succ i =>
          have hslot : slot+(i+1) = slot+1+i := by omega
          rw [hslot,ih _ _ (by omega),Function.update_of_ne (by omega)]
          congr 2
          omega

theorem descCount_eq (e : Engine c) (req : Request) :
    descCount e req = min (req.sdesc.length - req.swDescIdx) (c.descMax - e.descIdx) := by
  have hidx := e.descIdx.isLt
  simp only [descCount]
  split_ifs <;> omega

theorem descCount_pos (e : Engine c) {req : Request} (h : req.swDescIdx < req.sdesc.length) :
    0 < descCount e req := by
  have hidx := e.descIdx.isLt
  rw [descCount_eq]
  omega

theorem request_induction {motive : Engine c → Request → Prop}
    (done : ∀ e req, req.sdesc.length ≤ req.swDescIdx → motive e req)
    (more : ∀ e req, req.swDescIdx < req.sdesc.length →
      (∀ e', motive e' (transferInit e req).2.1) → motive e req)
    (e : Engine c) (req : Request) : motive e req := by
  induction hμ : req.sdesc.length - req.swDescIdx using Nat.strong_induction_on
    generalizing e req with
  | _ μ ih =>
      by_cases h : req.swDescIdx < req.sdesc.length
      · have hpos := descCount_pos e h
        exact more e req h fun e' =>
          ih (req.sdesc.length - (req.swDescIdx + descCount e req)) (by omega) e' _ rfl
      · exact done e req (Nat.le_of_not_lt h)

theorem length_taken (e : Engine c) (req : Request) :
    (taken e req).length = descCount e req := by
  rw [taken,List.length_take,List.length_drop,descCount_eq]
  omega

theorem Channel.bus_add (c : Channel) (slot k : ℕ) :
    c.bus slot + BitVec.ofNat 64 (descSize*k) = c.bus (slot+k) := by
  rw [bus,bus,BitVec.add_assoc,← BitVec.ofNat_add,Nat.mul_add]

theorem Engine.fetch_bus (e : Engine c) {slot : ℕ} (h : slot < c.descMax) :
    e.fetch (c.bus slot) = some (e.desc slot) := by
  have hrange := c.inRange
  have hoffset : (c.bus slot - c.descBus).toNat = descSize*slot := by
    rw [Channel.bus,BitVec.add_comm,BitVec.add_sub_cancel,BitVec.toNat_ofNat]
    apply Nat.mod_eq_of_lt
    show 32*slot < _
    have : 32*slot < 32*c.descMax := by omega
    exact lt_of_lt_of_le this (le_trans (Nat.le_add_left _ _) hrange)
  simp only [Engine.fetch,hoffset]
  have hdiv : descSize*slot/descSize = slot := Nat.mul_div_cancel_left slot (by norm_num)
  rw [if_pos ⟨Nat.mul_mod_right _ _,by rwa [hdiv]⟩,hdiv]

def copyOf (c : Channel) (epAddr : BitVec 64) (s : SwDesc) : Copy :=
  match c.dir with
  | .toDevice => ⟨s.addr,epAddr,s.len⟩
  | .fromDevice => ⟨epAddr,s.addr,s.len⟩

/-- What a transfer of the given pieces is to do. -/
def copies (c : Channel) : BitVec 64 → List SwDesc → List Copy
  | _, [] => []
  | epAddr, s::ss => copyOf c epAddr s :: copies c (c.advance epAddr s.len) ss

theorem advanceAll_append (epAddr : BitVec 64) (ss ts : List SwDesc) :
    c.advanceAll epAddr (ss++ts) = c.advanceAll (c.advanceAll epAddr ss) ts :=
  List.foldl_append

theorem copies_append (epAddr : BitVec 64) (ss ts : List SwDesc) :
    copies c epAddr (ss++ts) =
      copies c epAddr ss ++ copies c (c.advanceAll epAddr ss) ts := by
  induction ss generalizing epAddr with
  | nil => rfl
  | cons s ss ih =>
      rw [List.cons_append,copies,copies,ih]
      rfl

theorem copies_drop {ss : List SwDesc} (epAddr : BitVec 64) {i : ℕ} (hi : i < ss.length) :
    copies c (c.advanceAll epAddr (ss.take i)) (ss.drop i) =
      copyOf c (c.advanceAll epAddr (ss.take i)) ss[i] ::
        copies c (c.advanceAll epAddr (ss.take (i+1))) (ss.drop (i+1)) := by
  rw [List.drop_eq_getElem_cons hi,copies,← List.take_concat_get' _ _ hi,advanceAll_append]
  rfl

theorem xdmaDescSet_copy (d : Desc) (epAddr : BitVec 64) {s : SwDesc} (hlen : s.len < 2^32) :
    (xdmaDescSet c.dir d s.addr epAddr s.len).copy = copyOf c epAddr s := by
  have hbytes : (BitVec.ofNat 32 s.len).toNat = s.len := by
    rw [BitVec.toNat_ofNat,Nat.mod_eq_of_lt hlen]
  unfold copyOf
  cases c.dir <;> simp only [xdmaDescSet,Desc.copy,Desc.src,Desc.dst,pciDma_append,hbytes]

@[simp] theorem xdmaDescSet_control (dir : Direction) (d : Desc) (rcBusAddr epAddr : BitVec 64)
    (len : ℕ) : (xdmaDescSet dir d rcBusAddr epAddr len).control = d.control := by
  cases dir <;> rfl

@[simp] theorem xdmaDescSet_nextLo (dir : Direction) (d : Desc) (rcBusAddr epAddr : BitVec 64)
    (len : ℕ) : (xdmaDescSet dir d rcBusAddr epAddr len).nextLo = d.nextLo := by
  cases dir <;> rfl

@[simp] theorem xdmaDescSet_next (dir : Direction) (d : Desc) (rcBusAddr epAddr : BitVec 64)
    (len : ℕ) : (xdmaDescSet dir d rcBusAddr epAddr len).next = d.next := by
  cases dir <;> rfl

theorem xdmaGetNextAdj_lt (remaining : ℕ) (nextLo : BitVec 32) :
    xdmaGetNextAdj remaining nextLo < 64 := by
  unfold xdmaGetNextAdj maxAdjBlockSize
  split_ifs <;> omega

/-- The control word of a finished descriptor. -/
def controlWord (last : Bool) (nextAdjacent : ℕ) : BitVec 32 :=
  (if last then descMagic &&& ~~~0xff#32 ||| (descStopped ||| descEop ||| descCompleted)
    else descMagic) &&& 0x0000f0ff#32 ||| (descMagic ||| BitVec.ofNat 32 nextAdjacent <<< 8)

/-- The magic, the count and the stop bit do not overlap. -/
theorem controlWord_fields (last : Bool) (nextAdjacent : Fin 64) :
    controlWord last nextAdjacent >>> 16 = 0xad4b#32 ∧
      (controlWord last nextAdjacent).getLsbD 0 = last ∧
      ((controlWord last nextAdjacent >>> 8) &&& 0x3f#32).toNat = nextAdjacent := by
  revert last nextAdjacent
  decide

/-- Where descriptor `i` of the transfer points. -/
def nextBus (e : Engine c) (req : Request) (i : ℕ) : BitVec 64 :=
  if i+1 < descCount e req then c.bus (e.descIdx+(i+1)) else 0

variable {e : Engine c} {req : Request}

theorem chained_next (d : Desc) (next : BitVec 64) : (chained d next).next = next :=
  pciDma_append next

theorem linked_slot {i : ℕ} (hi : i < descCount e req) :
    transferDescInit e.desc e.descIdx (c.bus e.descIdx) (descCount e req) (e.descIdx+i) =
      chained (e.desc (e.descIdx+i)) (nextBus e req i) := by
  rw [transferDescInit,linkDescs_inside _ _ _ _ (by omega),Channel.bus_add,nextBus]
  congr 1
  by_cases hlast : i+1 < descCount e req
  · rw [if_pos (by omega),if_pos hlast]
  · rw [if_neg (by omega),if_neg hlast]

theorem built_slot {i : ℕ} (hi : i < (taken e req).length) :
    (transferBuild c (taken e req)
      (transferDescInit e.desc e.descIdx (c.bus e.descIdx) (descCount e req)) e.descIdx
      req.epAddr 0).1 (e.descIdx+i) =
    xdmaDescSet c.dir (chained (e.desc (e.descIdx+i)) (nextBus e req i))
      (taken e req)[i].addr (c.advanceAll req.epAddr ((taken e req).take i))
      (taken e req)[i].len := by
  rw [transferBuild_inside _ _ _ _ _ hi,linked_slot (by rwa [length_taken] at hi)]

theorem transferInit_slot {i : ℕ} (hi : i < (taken e req).length) :
    (transferInit e req).1.desc (e.descIdx+i) =
      { xdmaDescSet c.dir (chained (e.desc (e.descIdx+i)) (nextBus e req i))
          (taken e req)[i].addr (c.advanceAll req.epAddr ((taken e req).take i))
          (taken e req)[i].len with
        control := controlWord (decide (i+1 = descCount e req))
          (xdmaGetNextAdj (descCount e req-i-1) (pciDmaL (nextBus e req i))) } := by
  have hbuilt := built_slot hi
  have hcount : i < descCount e req := by rwa [length_taken] at hi
  simp only [transferInit]
  rw [fillAdjacent_inside _ _ _ hcount]
  by_cases hlast : i+1 = descCount e req
  · have hslot : (e.descIdx : ℕ)+(descCount e req-1) = e.descIdx+i := by omega
    rw [hslot,Function.update_self]
    rw [hbuilt]
    simp [xdmaDescAdjacent,xdmaDescControlSet,controlWord,chained,hlast]
  · have hslot : (e.descIdx : ℕ)+i ≠ e.descIdx+(descCount e req-1) := by omega
    rw [Function.update_of_ne hslot]
    rw [hbuilt]
    simp [xdmaDescAdjacent,controlWord,chained,hlast]

theorem transferInit_outside {s : ℕ}
    (h : s < e.descIdx ∨ e.descIdx + descCount e req ≤ s) (hcount : 0 < descCount e req) :
    (transferInit e req).1.desc s = e.desc s := by
  simp only [transferInit]
  rw [fillAdjacent_outside _ _ _ h,Function.update_of_ne (by omega),
    transferBuild_outside _ _ _ _ _ (by rwa [length_taken]),transferDescInit,
    linkDescs_outside _ _ _ _ (by omega)]

section Fields
variable {i : ℕ} (hi : i < (taken e req).length)
include hi

theorem transferInit_control :
    ((transferInit e req).1.desc (e.descIdx+i)).control =
      controlWord (decide (i+1 = descCount e req))
        (xdmaGetNextAdj (descCount e req-i-1) (pciDmaL (nextBus e req i))) := by
  rw [transferInit_slot hi]

theorem transferInit_next :
    ((transferInit e req).1.desc (e.descIdx+i)).next = nextBus e req i := by
  rw [transferInit_slot hi]
  exact (xdmaDescSet_next _ _ _ _ _).trans (chained_next _ _)

theorem transferInit_copy
    (hlen : (taken e req)[i].len < 2^32) :
    ((transferInit e req).1.desc (e.descIdx+i)).copy =
      copyOf c (c.advanceAll req.epAddr ((taken e req).take i)) (taken e req)[i] := by
  rw [transferInit_slot hi]
  exact xdmaDescSet_copy _ _ hlen

theorem transferInit_valid : ((transferInit e req).1.desc (e.descIdx+i)).Valid := by
  rw [Desc.Valid,transferInit_control hi]
  exact (controlWord_fields _ ⟨_,xdmaGetNextAdj_lt _ _⟩).1

theorem transferInit_stopped :
    ((transferInit e req).1.desc (e.descIdx+i)).stopped =
      decide (i+1 = descCount e req) := by
  rw [Desc.stopped,transferInit_control hi]
  exact (controlWord_fields _ ⟨_,xdmaGetNextAdj_lt _ _⟩).2.1

theorem transferInit_adjacent :
    ((transferInit e req).1.desc (e.descIdx+i)).adjacent =
      xdmaGetNextAdj (descCount e req-i-1) (pciDmaL (nextBus e req i)) := by
  rw [Desc.adjacent,transferInit_control hi]
  exact (controlWord_fields _ ⟨_,xdmaGetNextAdj_lt _ _⟩).2.2

theorem slot_lt : e.descIdx + i < c.descMax := by
  have hcount := descCount_eq e req
  rw [length_taken] at hi
  omega

theorem transferInit_fetch :
    (transferInit e req).1.fetch (c.bus (e.descIdx+i)) =
      some ((transferInit e req).1.desc (e.descIdx+i)) :=
  Engine.fetch_bus _ (slot_lt hi)

end Fields

theorem copies_from (hlen : ∀ s ∈ taken e req, s.len < 2^32) {i : ℕ}
    (hi : i < (taken e req).length) :
    copies c (c.advanceAll req.epAddr ((taken e req).take i)) ((taken e req).drop i) =
      ((transferInit e req).1.desc (e.descIdx+i)).copy ::
        copies c (c.advanceAll req.epAddr ((taken e req).take (i+1)))
          ((taken e req).drop (i+1)) := by
  rw [transferInit_copy hi (hlen _ (List.getElem_mem _)),copies_drop _ hi]

/-- The chain from descriptor `i` on, by induction from the last one backwards. It
depends on the slots of the transfer only, whatever else is in the ring `r`. -/
theorem chain_from (hlen : ∀ s ∈ taken e req, s.len < 2^32) {r : Engine c}
    (hsame : ∀ i < (taken e req).length,
      r.desc (e.descIdx+i) = (transferInit e req).1.desc (e.descIdx+i)) {k i : ℕ}
    (hk : i+1+k = (taken e req).length) :
    Chain r.fetch (c.bus (e.descIdx+i))
      (copies c (c.advanceAll req.epAddr ((taken e req).take i)) ((taken e req).drop i)) := by
  have hfetch : ∀ i < (taken e req).length,
      r.fetch (c.bus (e.descIdx+i)) = some ((transferInit e req).1.desc (e.descIdx+i)) :=
    fun i hi => (Engine.fetch_bus r (slot_lt hi)).trans (congrArg some (hsame i hi))
  have hi : i < (taken e req).length := by omega
  rw [copies_from hlen hi]
  induction k generalizing i with
  | zero =>
      rw [List.drop_of_length_le (by omega),copies]
      apply Chain.last (hfetch i hi) (transferInit_valid hi)
      rw [transferInit_stopped hi,decide_eq_true_eq,← length_taken]
      omega
  | succ k ih =>
      have hi' : i+1 < (taken e req).length := by omega
      apply Chain.next (hfetch i hi) (transferInit_valid hi)
      · rw [transferInit_stopped hi,decide_eq_false_iff_not,← length_taken]
        omega
      · rw [transferInit_next hi,nextBus,← length_taken,if_pos hi',copies_from hlen hi']
        exact ih (by omega) hi'

/-- The engine, started at the first descriptor, finds the pieces taken from the
request, in order and each with its device address. -/
theorem transferInit_chain (hlen : ∀ s ∈ req.sdesc, s.len < 2^32)
    (h : req.swDescIdx < req.sdesc.length) :
    Chain (transferInit e req).1.fetch (transferInit e req).2.2.descBus
      (copies c req.epAddr (taken e req)) := by
  have hpos := descCount_pos e h
  have htaken : ∀ s ∈ taken e req, s.len < 2^32 := fun s hs =>
    hlen s (List.mem_of_mem_drop (List.mem_of_mem_take hs))
  rw [← length_taken] at hpos
  exact chain_from htaken (fun _ _ => rfl) (k := (taken e req).length-1) (i := 0) (by omega)

theorem xdmaGetNextAdj_block {slot : ℕ} (hslot : slot < c.descMax) (remaining : ℕ) :
    (c.bus slot).toNat % 2048 + descSize*(xdmaGetNextAdj remaining (pciDmaL (c.bus slot))+1) ≤
      2048 := by
  have hbus : (c.bus slot).toNat = c.descBus.toNat + 32*slot := by
    have hrange := c.inRange
    have hfit : c.descBus.toNat + 32*slot < 2^64 := by
      have : 32*slot < 32*c.descMax := by omega
      exact lt_of_lt_of_le (Nat.add_lt_add_left this _) hrange
    rw [Channel.bus,BitVec.toNat_add,BitVec.toNat_ofNat,Nat.add_mod_mod]
    exact Nat.mod_eq_of_lt hfit
  have haligned : c.descBus.toNat % 32 = 0 := c.aligned
  have hindex : ((pciDmaL (c.bus slot) &&& 0xfff#32) >>> 5).toNat =
      (c.bus slot).toNat % 4096 / 32 := by
    have hmask : (pciDmaL (c.bus slot)).toNat &&& 0xfff =
        (pciDmaL (c.bus slot)).toNat % 4096 :=
      Nat.and_two_pow_sub_one_eq_mod _ 12
    rw [BitVec.toNat_ushiftRight,BitVec.toNat_and,Nat.shiftRight_eq_div_pow]
    show ((pciDmaL (c.bus slot)).toNat &&& 0xfff) / 2^5 = _
    rw [hmask,pciDmaL,BitVec.toNat_setWidth,Nat.mod_mod_of_dvd _ (by norm_num)]
  unfold xdmaGetNextAdj maxAdjBlockSize descSize
  rw [hindex,hbus]
  split_ifs <;> omega

/-- The descriptors read together from an address all belong to the transfer and
stand in one block of 2048 bytes. -/
def Xfer.Covers (c : Channel) (x : Xfer) (addr : BitVec 64) (adjacent : ℕ) : Prop :=
  (∀ k ≤ adjacent, ∃ i < x.descNum,
    addr + BitVec.ofNat 64 (descSize*k) = c.bus (x.descIndex+i)) ∧
  addr.toNat % 2048 + descSize*(adjacent+1) ≤ 2048

/-- The count that `engine_start` writes beside the first address. -/
def firstDescAdjacent (x : Xfer) : ℕ := xdmaGetNextAdj x.descNum (pciDmaL x.descBus)

theorem xdmaGetNextAdj_le {remaining : ℕ} (h : 0 < remaining) (nextLo : BitVec 32) :
    xdmaGetNextAdj remaining nextLo + 1 ≤ remaining := by
  unfold xdmaGetNextAdj
  split_ifs <;> omega

theorem covers_bus {i : ℕ} (hi : i < (taken e req).length) :
    (transferInit e req).2.2.Covers c (c.bus (e.descIdx+i))
      (xdmaGetNextAdj (descCount e req-i) (pciDmaL (c.bus (e.descIdx+i)))) := by
  refine ⟨fun k hk => ⟨i+k,?_,?_⟩,xdmaGetNextAdj_block (slot_lt hi) _⟩
  · rw [length_taken] at hi
    have hle := xdmaGetNextAdj_le (Nat.sub_pos_of_lt hi) (pciDmaL (c.bus (e.descIdx+i)))
    show i+k < descCount e req
    omega
  · rw [Channel.bus_add,Nat.add_assoc]
    rfl

/-- Fetching ahead never leaves the transfer and never crosses a block: neither
from the first descriptor nor from any other. -/
theorem fetch_ahead (e : Engine c) (req : Request) (h : req.swDescIdx < req.sdesc.length) :
    let r := transferInit e req
    r.2.2.Covers c r.2.2.descBus (firstDescAdjacent r.2.2) ∧
      ∀ i < r.2.2.descNum, ∀ d, r.1.fetch (c.bus (r.2.2.descIndex+i)) = some d →
        if d.stopped then d.adjacent = 0 else r.2.2.Covers c d.next d.adjacent := by
  have hpos : 0 < (taken e req).length := by
    rw [length_taken]
    exact descCount_pos e h
  refine ⟨covers_bus hpos,?_⟩
  intro i hcount d hd
  have hi : i < (taken e req).length := by
    rw [length_taken]
    exact hcount
  obtain rfl : (transferInit e req).1.desc (e.descIdx+i) = d :=
    Option.some.inj ((transferInit_fetch hi).symm.trans hd)
  rw [transferInit_stopped hi,transferInit_adjacent hi,transferInit_next hi]
  by_cases hlast : i+1 = descCount e req
  · rw [decide_eq_true hlast,if_pos rfl,xdmaGetNextAdj,if_pos (by omega)]
  · have hnext : i+1 < (taken e req).length := by
      rw [length_taken]
      exact Nat.lt_of_le_of_ne hcount hlast
    rw [decide_eq_false hlast,if_neg Bool.false_ne_true,nextBus,
      if_pos (by rwa [length_taken] at hnext)]
    exact covers_bus hnext

/-- Three pieces near the end of a ring of four descriptors. -/
theorem fetch_ahead_two :
    let c : Channel := ⟨0x1000,4,.toDevice,false,by decide,by decide⟩
    let e : Engine c := ⟨fun _ => ⟨0,0,0,0,0,0,0,0⟩,⟨2,by decide⟩,0⟩
    let req : Request := ⟨[⟨0x9000,16⟩,⟨0xa000,32⟩,⟨0xb000,8⟩],0x40,56,0⟩
    let r := transferInit e req
    r.2.2.descNum = 2 ∧ r.2.2.Covers c r.2.2.descBus (firstDescAdjacent r.2.2) ∧
      ∃ d, r.1.fetch (c.bus 2) = some d ∧ d.stopped = false ∧ r.2.2.Covers c d.next d.adjacent := by
  intro c e req r
  have hahead := fetch_ahead e req (by decide)
  have hfirst : r.1.fetch (c.bus 2) = some (r.1.desc 2) := Engine.fetch_bus _ (by decide)
  have hmore : (r.1.desc 2).stopped = false := by decide
  have hcovers := hahead.2 0 (by decide) _ hfirst
  rw [if_neg (by rw [hmore]; exact Bool.false_ne_true)] at hcovers
  exact ⟨by decide,hahead.1,_,hfirst,hmore,hcovers⟩

end FpgaTest.XdmaTransfer
