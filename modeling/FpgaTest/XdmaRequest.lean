import FpgaTest.ByteCopies

/-!
# The request of a scatter list

`xdma_init_request` cuts the entries of a scatter list into pieces that fit the
length field of a descriptor. The array for the pieces is allocated beforehand,
with one place for every entry and, for an entry that is too long, as many
again as it will have pieces. The rounding division of that count, the count and
the size of the allocation are all computed in 32 bits.
-/
namespace FpgaTest.XdmaRequest
open ByteCopies

/-- An entry as the mapping left it: bus address and length. -/
structure Sg where
  dmaAddress : BitVec 64
  dmaLen : BitVec 32
  deriving DecidableEq, Repr

structure SwDesc where
  addr : BitVec 64
  len : ℕ
  deriving DecidableEq, Repr

structure Request where
  sdesc : List SwDesc
  epAddr : BitVec 64
  totalLen : ℕ
  swDescIdx : ℕ
  deriving Repr

/-- The inner loop, over one entry. -/
def splitEntry (descBlenMax : ℕ) [NeZero descBlenMax] (addr : BitVec 64) (tlen : ℕ) :
    List SwDesc :=
  if tlen = 0 then []
  else if descBlenMax < tlen then
    ⟨addr,descBlenMax⟩ ::
      splitEntry descBlenMax (addr + BitVec.ofNat 64 descBlenMax) (tlen - descBlenMax)
  else [⟨addr,tlen⟩]
termination_by tlen
decreasing_by
  have := NeZero.pos descBlenMax
  omega

section Split
variable (descBlenMax : ℕ) [NeZero descBlenMax]

def extra (sgl : List Sg) : ℕ :=
  (sgl.map fun sg =>
    if descBlenMax < sg.dmaLen.toNat then
      (sg.dmaLen.toNat + descBlenMax - 1) % 2^32 / descBlenMax
    else 0).sum

/-- The count of places. -/
def maxPieces (sgl : List Sg) : BitVec 32 := BitVec.ofNat 32 (sgl.length + extra descBlenMax sgl)

/-- `sizeof(struct xdma_request_cb)` and `sizeof(struct sw_desc)` of a 64 bit kernel. -/
def sizeofRequestCb : ℕ := 336
def sizeofSwDesc : ℕ := 16

/-- The places that there is room for. -/
def allocated (sgl : List Sg) : ℕ :=
  ((sizeofRequestCb + sizeofSwDesc*(maxPieces descBlenMax sgl).toNat) % 2^32 - sizeofRequestCb) /
    sizeofSwDesc

def pieces (sgl : List Sg) : List SwDesc :=
  sgl.flatMap fun sg => splitEntry descBlenMax sg.dmaAddress sg.dmaLen.toNat

/-- The pieces are compared with the count only after all of them were stored. What
stores behind the array do is not known, so there is no request then either. -/
def initRequest (sgl : List Sg) (epAddr : BitVec 64) : Option Request :=
  if allocated descBlenMax sgl < (pieces descBlenMax sgl).length then none
  else if (maxPieces descBlenMax sgl).toInt <
      (BitVec.ofNat 32 (pieces descBlenMax sgl).length).toInt then none
  else some
    { sdesc := pieces descBlenMax sgl
      epAddr := epAddr
      totalLen := (sgl.map fun sg => sg.dmaLen.toNat).sum % 2^32
      swDescIdx := 0 }

end Split

/-- The bus addresses of a scatter list, byte by byte. -/
def addresses (sgl : List Sg) : List (BitVec 64) :=
  sgl.flatMap fun sg => span sg.dmaAddress sg.dmaLen.toNat

def SwDesc.span (s : SwDesc) : List (BitVec 64) := ByteCopies.span s.addr s.len

variable {descBlenMax : ℕ} [NeZero descBlenMax]

@[simp] theorem splitEntry_zero (addr : BitVec 64) : splitEntry descBlenMax addr 0 = [] := by
  rw [splitEntry,if_pos rfl]

theorem splitEntry_long (addr : BitVec 64) {tlen : ℕ} (h : descBlenMax < tlen) :
    splitEntry descBlenMax addr tlen =
      ⟨addr,descBlenMax⟩ ::
        splitEntry descBlenMax (addr + BitVec.ofNat 64 descBlenMax) (tlen - descBlenMax) := by
  rw [splitEntry,if_neg (by omega),if_pos h]

theorem splitEntry_short (addr : BitVec 64) {tlen : ℕ} (hpos : 0 < tlen)
    (h : tlen ≤ descBlenMax) : splitEntry descBlenMax addr tlen = [⟨addr,tlen⟩] := by
  rw [splitEntry,if_neg (by omega),if_neg (by omega)]

/-- The pieces of an entry are its bytes, in order. -/
theorem splitEntry_span (addr : BitVec 64) (tlen : ℕ) :
    (splitEntry descBlenMax addr tlen).flatMap SwDesc.span = span addr tlen := by
  induction tlen using Nat.strong_induction_on generalizing addr with
  | _ tlen ih =>
      have hpos := NeZero.pos descBlenMax
      rcases Nat.eq_zero_or_pos tlen with rfl | htlen
      · simp
      by_cases hlong : descBlenMax < tlen
      · rw [splitEntry_long addr hlong,List.flatMap_cons,ih _ (by omega)]
        conv_rhs => rw [← Nat.add_sub_cancel' hlong.le,span_add]
        rfl
      · rw [splitEntry_short addr htlen (by omega),List.flatMap_cons,List.flatMap_nil,
          List.append_nil]
        rfl

theorem splitEntry_len (addr : BitVec 64) (tlen : ℕ) :
    ∀ s ∈ splitEntry descBlenMax addr tlen, 0 < s.len ∧ s.len ≤ descBlenMax := by
  induction tlen using Nat.strong_induction_on generalizing addr with
  | _ tlen ih =>
      have hpos := NeZero.pos descBlenMax
      intro s hs
      rcases Nat.eq_zero_or_pos tlen with rfl | htlen
      · rw [splitEntry_zero] at hs
        exact absurd hs List.not_mem_nil
      by_cases hlong : descBlenMax < tlen
      · rw [splitEntry_long addr hlong] at hs
        rcases List.mem_cons.mp hs with rfl | hs
        · exact ⟨hpos,le_rfl⟩
        · exact ih _ (by omega) _ s hs
      · rw [splitEntry_short addr htlen (by omega),List.mem_singleton] at hs
        subst hs
        exact ⟨htlen,Nat.le_of_not_lt hlong⟩

theorem length_splitEntry (addr : BitVec 64) (tlen : ℕ) :
    (splitEntry descBlenMax addr tlen).length = (tlen + descBlenMax - 1)/descBlenMax := by
  induction tlen using Nat.strong_induction_on generalizing addr with
  | _ tlen ih =>
      have hpos := NeZero.pos descBlenMax
      rcases Nat.eq_zero_or_pos tlen with rfl | htlen
      · rw [splitEntry_zero,List.length_nil,Nat.zero_add,Nat.div_eq_of_lt (by omega)]
      by_cases hlong : descBlenMax < tlen
      · rw [splitEntry_long addr hlong,List.length_cons,ih _ (by omega),
          ← Nat.add_div_right _ hpos]
        congr 1
        omega
      · rw [splitEntry_short addr htlen (by omega),List.length_singleton]
        symm
        rw [Nat.div_eq_iff hpos]
        omega

theorem pieces_cons (sg : Sg) (sgl : List Sg) :
    pieces descBlenMax (sg::sgl) =
      splitEntry descBlenMax sg.dmaAddress sg.dmaLen.toNat ++ pieces descBlenMax sgl := rfl

theorem pieces_span (sgl : List Sg) :
    (pieces descBlenMax sgl).flatMap SwDesc.span = addresses sgl := by
  induction sgl with
  | nil => rfl
  | cons sg sgl ih =>
      rw [pieces_cons,List.flatMap_append,splitEntry_span,ih]
      rfl

theorem pieces_len (sgl : List Sg) :
    ∀ s ∈ pieces descBlenMax sgl, 0 < s.len ∧ s.len ≤ descBlenMax := by
  intro s hs
  rcases List.mem_flatMap.mp hs with ⟨sg,_,hs⟩
  exact splitEntry_len _ _ s hs

/-- Neither the rounded-up count of an entry nor the size of the allocation wraps around. -/
structure NoWrap (descBlenMax : ℕ) (sgl : List Sg) : Prop where
  entries : ∀ sg ∈ sgl, sg.dmaLen.toNat + descBlenMax ≤ 2^32
  size : sizeofRequestCb + sizeofSwDesc*(sgl.length + extra descBlenMax sgl) < 2^32

omit [NeZero descBlenMax] in
theorem NoWrap.maxPieces {sgl : List Sg} (h : NoWrap descBlenMax sgl) :
    (maxPieces descBlenMax sgl).toNat = sgl.length + extra descBlenMax sgl := by
  have hsize := h.size
  rw [XdmaRequest.maxPieces,BitVec.toNat_ofNat,Nat.mod_eq_of_lt]
  rw [sizeofSwDesc] at hsize
  omega

omit [NeZero descBlenMax] in
theorem NoWrap.allocated {sgl : List Sg} (h : NoWrap descBlenMax sgl) :
    allocated descBlenMax sgl = sgl.length + extra descBlenMax sgl := by
  rw [XdmaRequest.allocated,h.maxPieces,Nat.mod_eq_of_lt h.size,Nat.add_sub_cancel_left]
  exact Nat.mul_div_cancel_left _ (by decide)

theorem length_pieces_le {sgl : List Sg}
    (h : ∀ sg ∈ sgl, sg.dmaLen.toNat + descBlenMax ≤ 2^32) :
    (pieces descBlenMax sgl).length ≤ sgl.length + extra descBlenMax sgl := by
  induction sgl with
  | nil => exact Nat.zero_le _
  | cons sg sgl ih =>
      have hrest := ih fun s hs => h s (List.mem_cons_of_mem _ hs)
      have hsg := h sg List.mem_cons_self
      have hpos := NeZero.pos descBlenMax
      have hone : (splitEntry descBlenMax sg.dmaAddress sg.dmaLen.toNat).length ≤
          1 + if descBlenMax < sg.dmaLen.toNat then
            (sg.dmaLen.toNat + descBlenMax - 1) % 2^32 / descBlenMax else 0 := by
        rw [length_splitEntry]
        split_ifs with hlong
        · rw [Nat.mod_eq_of_lt (by omega)]
          omega
        · rw [Nat.add_zero,← Nat.lt_succ_iff,Nat.div_lt_iff_lt_mul hpos]
          omega
      rw [pieces_cons,List.length_append]
      simp only [extra,List.length_cons,List.map_cons,List.sum_cons] at hrest ⊢
      omega

omit [NeZero descBlenMax] in
/-- With a length field of at least a page, the entries that are too long are few. -/
theorem extra_le (hmin : 4096 ≤ descBlenMax) (sgl : List Sg) :
    2048*extra descBlenMax sgl ≤ (addresses sgl).length := by
  induction sgl with
  | nil => exact Nat.zero_le _
  | cons sg sgl ih =>
      have hpos : 0 < descBlenMax := by omega
      have hone : 2048*(if descBlenMax < sg.dmaLen.toNat then
          (sg.dmaLen.toNat + descBlenMax - 1) % 2^32 / descBlenMax else 0) ≤ sg.dmaLen.toNat := by
        split_ifs with hlong
        · have hdiv := Nat.div_mul_le_self ((sg.dmaLen.toNat + descBlenMax - 1) % 2^32) descBlenMax
          have hmod := Nat.mod_le (sg.dmaLen.toNat + descBlenMax - 1) (2^32)
          have hmul := Nat.mul_le_mul_left
            ((sg.dmaLen.toNat + descBlenMax - 1) % 2^32 / descBlenMax) hmin
          omega
        · exact Nat.zero_le _
      have hlength : (addresses (sg::sgl)).length = sg.dmaLen.toNat + (addresses sgl).length := by
        rw [addresses,List.flatMap_cons,List.length_append,length_span]
        rfl
      have hextra : extra descBlenMax (sg::sgl) = (if descBlenMax < sg.dmaLen.toNat then
          (sg.dmaLen.toNat + descBlenMax - 1) % 2^32 / descBlenMax else 0) +
            extra descBlenMax sgl := rfl
      rw [hlength,hextra]
      omega

theorem initRequest_eq {sgl : List Sg} (h : NoWrap descBlenMax sgl) (epAddr : BitVec 64) :
    initRequest descBlenMax sgl epAddr = some
      { sdesc := pieces descBlenMax sgl
        epAddr := epAddr
        totalLen := (sgl.map fun sg => sg.dmaLen.toNat).sum % 2^32
        swDescIdx := 0 } := by
  have hle := length_pieces_le h.entries
  have hmax := h.maxPieces
  have hsize := h.size
  rw [sizeofSwDesc] at hsize
  have hnum : (BitVec.ofNat 32 (pieces descBlenMax sgl).length).toNat =
      (pieces descBlenMax sgl).length := by
    rw [BitVec.toNat_ofNat,Nat.mod_eq_of_lt (by omega)]
  rw [initRequest,if_neg (by rw [h.allocated]; omega),if_neg]
  rw [BitVec.toInt_eq_toNat_of_lt (by omega),BitVec.toInt_eq_toNat_of_lt (by omega)]
  omega

theorem initRequest_some {sgl : List Sg} {epAddr : BitVec 64} {req : Request}
    (h : initRequest descBlenMax sgl epAddr = some req) :
    req = ⟨pieces descBlenMax sgl,epAddr,(sgl.map fun sg => sg.dmaLen.toNat).sum % 2^32,0⟩ := by
  unfold initRequest at h
  split_ifs at h
  exact (Option.some.inj h).symm

/-- The pieces of a request are the bytes of the list in order, none of them empty or
too long for a descriptor, and all of them stored inside the array. -/
theorem request_pieces (sgl : List Sg) (epAddr : BitVec 64) (h : NoWrap descBlenMax sgl) :
    ∃ req, initRequest descBlenMax sgl epAddr = some req ∧
      req.sdesc.flatMap SwDesc.span = addresses sgl ∧
      (∀ s ∈ req.sdesc, 0 < s.len ∧ s.len ≤ descBlenMax) ∧
      req.sdesc.length ≤ allocated descBlenMax sgl :=
  ⟨_,initRequest_eq h epAddr,pieces_span sgl,pieces_len sgl,
    h.allocated ▸ length_pieces_le h.entries⟩

/-- A short entry and one of three pieces. -/
theorem request_pieces_four : ∃ req, initRequest 100 [⟨0x1000,40⟩,⟨0x2000,250⟩] 0 = some req ∧
    req.sdesc.length ≤ 5 := by
  rcases request_pieces [⟨0x1000,40⟩,⟨0x2000,250⟩] 0
    (show NoWrap 100 _ from ⟨by decide,by decide⟩) with ⟨req,hreq,_,_,hle⟩
  exact ⟨req,hreq,hle⟩

end FpgaTest.XdmaRequest
