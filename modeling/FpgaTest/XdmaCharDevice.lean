import FpgaTest.XdmaSubmit

/-!
# Reading and writing through the character device

`char_sgdma_read_write` checks the alignment of the user buffer, pins its pages,
makes one scatter list entry of what lies on each page and submits the list. It
does not move the file position.
-/
namespace FpgaTest.XdmaCharDevice
open ByteCopies XdmaRequest XdmaTransfer XdmaSubmit

abbrev pageSize : ℕ := 4096

def efault : ℤ := 14

/-- The user's pages: the bus address behind a page number, and the attempt to pin
pages, which may end early. -/
structure UserPages where
  frame : ℕ → BitVec 64
  getUserPages : BitVec 64 → ℕ → Except ℤ (List (BitVec 64))
  pinned : ∀ buf n ps, getUserPages buf n = .ok ps →
    ∃ k ≤ n, ps = (List.range' (buf.toNat/pageSize) k).map frame
  error_neg : ∀ buf n rv, getUserPages buf n = .error rv → rv < 0

/-- Mapping for the device, which may join entries and may fail. -/
structure DmaMap where
  mapSg : List Sg → List Sg
  mapped : ∀ sgl, mapSg sgl = [] ∨ addresses (mapSg sgl) = addresses sgl

/-- The engine's alignment, as read from its registers. -/
structure AlignRegs where
  addrAlign : BitVec 32
  lenGranularity : BitVec 32

def checkTransferAlign (c : Channel) (al : AlignRegs) (buf count pos : BitVec 64)
    (sync : Bool) : ℤ :=
  let bufLsb := buf.setWidth 32 &&& (al.addrAlign - 1)
  let posLsb := pos.setWidth 32 &&& (al.addrAlign - 1)
  let lenLsb := count &&& (al.lenGranularity.setWidth 64 - 1)
  if c.nonIncrAddr then
    if bufLsb ≠ 0 then -einval
    else if posLsb ≠ 0 ∧ sync = true then -einval
    else if lenLsb ≠ 0 then -einval
    else 0
  else if bufLsb ≠ posLsb then -einval
  else 0

def pagesNr (buf len : BitVec 64) : ℕ :=
  (((buf + len + BitVec.ofNat 64 pageSize - 1) - (buf &&& ~~~0xfff#64)) >>> 12).toNat % 2^32

/-- The loop over the pages: the entries, and the length that is left over. -/
def sglOfPages : List (BitVec 64) → BitVec 64 → BitVec 64 → List Sg × BitVec 64
  | [], _, len => ([],len)
  | page::pages, buf, len =>
      let offset := buf.toNat % pageSize
      let nbytes := min (pageSize - offset) (len.toNat % 2^32)
      let rest := sglOfPages pages (buf + BitVec.ofNat 64 nbytes) (len - BitVec.ofNat 64 nbytes)
      (⟨page + BitVec.ofNat 64 offset,BitVec.ofNat 32 nbytes⟩::rest.1,rest.2)

/-- Two neighbours in the list are the same page. -/
def duplicatePages : List (BitVec 64) → Bool
  | p::q::pages => p == q || duplicatePages (q::pages)
  | _ => false

def mapUserBufToSgl (up : UserPages) (buf len : BitVec 64) : Except ℤ (List Sg) :=
  if pagesNr buf len = 0 then .error (-einval)
  else
    match up.getUserPages buf (pagesNr buf len) with
    | .error rv => .error rv
    | .ok pages =>
        if pages.length ≠ pagesNr buf len then .error (-efault)
        else if duplicatePages pages then .error (-efault)
        else
          let r := sglOfPages pages buf len
          if r.2 ≠ 0 then .error (-einval) else .ok r.1

/-- The memory of the host is the source of a write and the target of a read. -/
def charSgdmaReadWrite {c : Channel} (descBlenMax : ℕ) [NeZero descBlenMax] (al : AlignRegs)
    (up : UserPages) (dm : DmaMap) (hw : Hardware c) (offline : Bool) (e : Engine c)
    (buf count pos : BitVec 64) (write : Bool) (source target : Memory) : Submitted c :=
  if c.dir ≠ (if write then .toDevice else .fromDevice) then ⟨e,target,-einval⟩
  else if checkTransferAlign c al buf count pos true ≠ 0 then
    ⟨e,target,checkTransferAlign c al buf count pos true⟩
  else
    match mapUserBufToSgl up buf count with
    | .error rv => ⟨e,target,rv⟩
    | .ok sgl => xdmaXferSubmit descBlenMax hw offline write e pos (dm.mapSg sgl) source target

def charSgdmaLlseek (fPos off : BitVec 64) (whence : ℕ) : Except ℤ (BitVec 64) :=
  match whence with
  | 0 => if off.msb then .error (-einval) else .ok off
  | 1 => if (fPos+off).msb then .error (-einval) else .ok (fPos+off)
  | 2 => if (0xffffffff#64+off).msb then .error (-einval) else .ok (0xffffffff#64+off)
  | _ => .error (-einval)

/-- The bus addresses of `n` bytes of user memory. -/
def userAddresses (up : UserPages) (buf n : ℕ) : List (BitVec 64) :=
  (List.range n).map fun j =>
    up.frame ((buf+j)/pageSize) + BitVec.ofNat 64 ((buf+j)%pageSize)

theorem userAddresses_add (up : UserPages) (buf m n : ℕ) :
    userAddresses up buf (m+n) = userAddresses up buf m ++ userAddresses up (buf+m) n := by
  rw [userAddresses,userAddresses,userAddresses,List.range_add,List.map_append,List.map_map]
  congr 1
  apply List.map_congr_left
  intro i _
  simp only [Function.comp_apply,Nat.add_assoc]

theorem userAddresses_page (up : UserPages) {buf n : ℕ} (h : buf % pageSize + n ≤ pageSize) :
    userAddresses up buf n =
      span (up.frame (buf/pageSize) + BitVec.ofNat 64 (buf%pageSize)) n := by
  apply List.map_congr_left
  intro j hj
  rw [List.mem_range] at hj
  have hdiv : (buf+j)/pageSize = buf/pageSize := by
    unfold pageSize at h ⊢
    omega
  have hmod : (buf+j)%pageSize = buf%pageSize + j := by
    unfold pageSize at h ⊢
    omega
  rw [hdiv,hmod,BitVec.ofNat_add,BitVec.add_assoc]

variable {up : UserPages}

theorem sglOfPages_zero (pages : List (BitVec 64)) (buf : BitVec 64) :
    (sglOfPages pages buf 0).2 = 0 ∧ addresses (sglOfPages pages buf 0).1 = [] := by
  induction pages generalizing buf with
  | nil => exact ⟨rfl,rfl⟩
  | cons page pages ih =>
      have hnone : min (pageSize - buf.toNat % pageSize) ((0 : BitVec 64).toNat % 2^32) = 0 :=
        Nat.min_zero _
      rw [sglOfPages]
      simp only
      rw [hnone]
      exact ih _

theorem toNat_sub_ofNat {len : BitVec 64} {n : ℕ} (h : n ≤ len.toNat) :
    (len - BitVec.ofNat 64 n).toNat = len.toNat - n := by
  have hof : (BitVec.ofNat 64 n).toNat = n := by
    rw [BitVec.toNat_ofNat,Nat.mod_eq_of_lt (by omega)]
  rw [BitVec.toNat_sub_of_le (by rwa [BitVec.le_def,hof]),hof]

theorem sglOfPages_addresses (buf len : BitVec 64) (k : ℕ)
    (hk : k = (buf.toNat % 4096 + len.toNat + 4095)/4096)
    (hlen : len.toNat < 2^32) (hfit : buf.toNat + len.toNat < 2^64) :
    (sglOfPages ((List.range' (buf.toNat/pageSize) k).map up.frame) buf len).2 = 0 ∧
      addresses (sglOfPages ((List.range' (buf.toNat/pageSize) k).map up.frame) buf len).1 =
        userAddresses up buf.toNat len.toNat := by
  induction k generalizing buf len with
  | zero =>
      have hzero : len.toNat = 0 := by omega
      rw [hzero]
      exact ⟨BitVec.eq_of_toNat_eq hzero,rfl⟩
  | succ k ih =>
      obtain ⟨nbytes,hmin⟩ : ∃ n, n = min (4096 - buf.toNat % 4096) (len.toNat % 2^32) :=
        ⟨_,rfl⟩
      rw [Nat.mod_eq_of_lt hlen] at hmin
      have hle : nbytes ≤ len.toNat := by omega
      have hpage : buf.toNat % 4096 + nbytes ≤ 4096 := by omega
      have hbuf : (buf + BitVec.ofNat 64 nbytes).toNat = buf.toNat + nbytes := by
        rw [BitVec.toNat_add,BitVec.toNat_ofNat,Nat.add_mod_mod,Nat.mod_eq_of_lt (by omega)]
      have hlen' := toNat_sub_ofNat hle
      have hof : (BitVec.ofNat 32 nbytes).toNat = nbytes := by
        rw [BitVec.toNat_ofNat,Nat.mod_eq_of_lt (by omega)]
      have hsplit : len.toNat = nbytes + (len - BitVec.ofNat 64 nbytes).toNat := by omega
      have hrest :
          (sglOfPages ((List.range' (buf.toNat/pageSize+1) k).map up.frame)
            (buf + BitVec.ofNat 64 nbytes) (len - BitVec.ofNat 64 nbytes)).2 = 0 ∧
          addresses (sglOfPages ((List.range' (buf.toNat/pageSize+1) k).map up.frame)
            (buf + BitVec.ofNat 64 nbytes) (len - BitVec.ofNat 64 nbytes)).1 =
            userAddresses up (buf.toNat + nbytes) (len - BitVec.ofNat 64 nbytes).toNat := by
        by_cases hlast : nbytes = len.toNat
        · have hzero : len - BitVec.ofNat 64 nbytes = 0 :=
            BitVec.eq_of_toNat_eq (by rw [hlen',hlast,Nat.sub_self]; rfl)
          rw [hzero]
          exact sglOfPages_zero _ _
        · have h := ih (buf + BitVec.ofNat 64 nbytes) (len - BitVec.ofNat 64 nbytes)
            (by omega) (by omega) (by omega)
          rwa [hbuf,show (buf.toNat+nbytes)/4096 = buf.toNat/4096+1 by omega] at h
      rw [List.range'_succ,List.map_cons,sglOfPages]
      simp only
      rw [Nat.mod_eq_of_lt hlen,← hmin]
      refine ⟨hrest.1,?_⟩
      rw [hsplit,userAddresses_add,userAddresses_page up hpage,← hrest.2,addresses,
        List.flatMap_cons,hof]
      rfl

/-- The start of the page of an address. -/
theorem toNat_pageMask (buf : BitVec 64) :
    (buf &&& ~~~0xfff#64).toNat = buf.toNat/4096*4096 := by
  have hbits : buf &&& ~~~0xfff#64 = (buf >>> 12) <<< 12 := by
    apply BitVec.eq_of_getLsbD_eq
    intro i hi
    have hmask : (0xfff#64).getLsbD i = decide (i < 12) := by
      rw [show (0xfff#64) = BitVec.ofNat 64 (2^12-1) from rfl,BitVec.getLsbD_ofNat,
        Nat.testBit_two_pow_sub_one]
      simp [hi]
    rw [BitVec.getLsbD_and,BitVec.getLsbD_not,hmask,BitVec.getLsbD_shiftLeft,
      BitVec.getLsbD_ushiftRight]
    by_cases hlow : i < 12
    · simp [hlow]
    · simp [hlow,hi,show 12+(i-12) = i by omega]
  have hlt := buf.isLt
  rw [hbits,BitVec.toNat_shiftLeft,BitVec.toNat_ushiftRight,Nat.shiftRight_eq_div_pow,
    Nat.shiftLeft_eq,Nat.mod_eq_of_lt (by omega)]

/-- The buffer and the page behind it lie in the address space. -/
def InSpace (buf len : BitVec 64) : Prop := buf.toNat + len.toNat + pageSize ≤ 2^64

theorem pagesNr_eq {buf len : BitVec 64} (h : InSpace buf len) (hlen : len.toNat < 2^32) :
    pagesNr buf len = (buf.toNat % 4096 + len.toNat + 4095)/4096 := by
  have hmask := toNat_pageMask buf
  have hspace : buf.toNat + len.toNat + 4096 ≤ 2^64 := h
  have hsum : (buf + len + BitVec.ofNat 64 pageSize - 1).toNat = buf.toNat + len.toNat + 4095 := by
    rw [show BitVec.ofNat 64 pageSize = 4096#64 from rfl]
    bv_omega
  have hle : buf &&& ~~~0xfff#64 ≤ buf + len + BitVec.ofNat 64 pageSize - 1 := by
    rw [BitVec.le_def,hsum,hmask]
    omega
  rw [pagesNr,BitVec.toNat_ushiftRight,BitVec.toNat_sub_of_le hle,hsum,hmask,
    Nat.shiftRight_eq_div_pow,Nat.mod_eq_of_lt (by omega)]
  omega

theorem length_sglOfPages (pages : List (BitVec 64)) (buf len : BitVec 64) :
    (sglOfPages pages buf len).1.length = pages.length := by
  induction pages generalizing buf len with
  | nil => rfl
  | cons page pages ih =>
      rw [sglOfPages]
      simp only
      rw [List.length_cons,List.length_cons,ih]

theorem mapUserBufToSgl_ok {buf len : BitVec 64} (h : InSpace buf len)
    (hlen : len.toNat < 2^32) {sgl : List Sg} (hok : mapUserBufToSgl up buf len = .ok sgl) :
    addresses sgl = userAddresses up buf.toNat len.toNat ∧
      sgl.length = (buf.toNat % 4096 + len.toNat + 4095)/4096 := by
  unfold mapUserBufToSgl at hok
  split_ifs at hok
  cases hget : up.getUserPages buf (pagesNr buf len) with
  | error rv =>
      rw [hget] at hok
      contradiction
  | ok pages =>
      rw [hget] at hok
      simp only at hok
      split_ifs at hok with hcount hdup hrest
      cases hok
      rcases up.pinned _ _ _ hget with ⟨k,_,rfl⟩
      have hk : k = pagesNr buf len := by simpa using hcount
      have hspace : buf.toNat + len.toNat + 4096 ≤ 2^64 := h
      rw [pagesNr_eq h hlen] at hk
      refine ⟨(sglOfPages_addresses buf len k hk hlen (by omega)).2,?_⟩
      rw [length_sglOfPages,List.length_map,List.length_range',hk]

/-- The length left over is nothing, and the pages are not refused for it. -/
theorem mapUserBufToSgl_error {buf len : BitVec 64} {rv : ℤ}
    (herr : mapUserBufToSgl up buf len = .error rv) : rv < 0 := by
  unfold mapUserBufToSgl at herr
  split_ifs at herr
  · cases herr
    decide
  · cases hget : up.getUserPages buf (pagesNr buf len) with
    | error e =>
        rw [hget] at herr
        cases herr
        exact up.error_neg _ _ _ hget
    | ok pages =>
        rw [hget] at herr
        simp only at herr
        split_ifs at herr <;> cases herr <;> decide

theorem dmaLen_le {sgl : List Sg} {sg : Sg} (h : sg ∈ sgl) :
    sg.dmaLen.toNat ≤ (addresses sgl).length := by
  have hsub := List.sublist_flatten_of_mem
    (List.mem_map_of_mem (f := fun s : Sg => span s.dmaAddress s.dmaLen.toNat) h)
  have hle := hsub.length_le
  rw [length_span] at hle
  exact hle

theorem checkTransferAlign_neg {c : Channel} {al : AlignRegs} {buf count pos : BitVec 64}
    {sync : Bool} (h : checkTransferAlign c al buf count pos sync ≠ 0) :
    checkTransferAlign c al buf count pos sync < 0 := by
  unfold checkTransferAlign at h ⊢
  simp only at h ⊢
  split_ifs at h ⊢ <;> first | decide | exact absurd rfl h

/-- The most that one call moves. -/
def rwMaxSize : ℕ := 0x7ffff000

variable {c : Channel} {descBlenMax : ℕ} [NeZero descBlenMax]

theorem length_userAddresses (up : UserPages) (buf n : ℕ) :
    (userAddresses up buf n).length = n := by
  rw [userAddresses,List.length_map,List.length_range]

/-- A call is refused with nothing moved, or returns how much was moved. -/
theorem charSgdmaReadWrite_moved (al : AlignRegs) (up : UserPages) (dm : DmaMap)
    (hw : Hardware c) (offline : Bool) (e : Engine c) (buf count pos : BitVec 64) (write : Bool)
    (source target : Memory) (hinc : c.nonIncrAddr = false) (hmax : descBlenMax < 2^28)
    (hspace : InSpace buf count) (hcount : count.toNat ≤ rwMaxSize) :
    let r := charSgdmaReadWrite descBlenMax al up dm hw offline e buf count pos write source
      target
    (r.rv < 0 ∧ r.memory = target) ∨
      Moved (pairs c pos (userAddresses up buf.toNat count.toNat)) source target r.memory
        r.rv := by
  have hsize : count.toNat ≤ 0x7ffff000 := hcount
  simp only
  unfold charSgdmaReadWrite
  by_cases hdir : c.dir ≠ (if write then .toDevice else .fromDevice)
  · rw [if_pos hdir]
    exact Or.inl ⟨(by decide : -einval < 0),rfl⟩
  rw [if_neg hdir]
  rw [not_not] at hdir
  by_cases halign : checkTransferAlign c al buf count pos true ≠ 0
  · rw [if_pos halign]
    exact Or.inl ⟨checkTransferAlign_neg halign,rfl⟩
  rw [if_neg halign]
  cases hmap : mapUserBufToSgl up buf count with
  | error rv => exact Or.inl ⟨mapUserBufToSgl_error hmap,rfl⟩
  | ok sgl =>
      have haddr := (mapUserBufToSgl_ok hspace (by omega) hmap).1
      simp only
      by_cases hoff : offline = true
      · rw [xdmaXferSubmit,if_pos hoff]
        exact Or.inl ⟨(by decide : -ebusy < 0),rfl⟩
      rw [Bool.not_eq_true] at hoff
      subst hoff
      by_cases hnil : dm.mapSg sgl = []
      · rw [xdmaXferSubmit,if_neg Bool.false_ne_true,if_neg (not_not.mpr hdir),hnil,
          if_pos List.length_nil]
        exact Or.inl ⟨(by decide : -eio < 0),rfl⟩
      · have hmapped := (dm.mapped sgl).resolve_left hnil
        rw [haddr] at hmapped
        have hlength : (addresses (dm.mapSg sgl)).length = count.toNat := by
          rw [hmapped,length_userAddresses]
        rw [← hmapped,xdmaXferSubmit,if_neg Bool.false_ne_true,if_neg (not_not.mpr hdir),
          if_neg (mt List.length_eq_zero_iff.mp hnil)]
        cases hreq : initRequest descBlenMax (dm.mapSg sgl) pos with
        | none => exact Or.inl ⟨(by decide : -enomem < 0),rfl⟩
        | some req => exact Or.inr (submitLoop_moved hinc (by omega) (by omega) hreq)

theorem pairs_toDevice (hdir : c.dir = .toDevice) (pos : BitVec 64) (hosts : List (BitVec 64)) :
    (pairs c pos hosts).map Prod.fst = hosts ∧
      (pairs c pos hosts).map Prod.snd = span pos hosts.length := by
  unfold pairs
  rw [hdir]
  exact ⟨List.map_fst_zip (length_span _ _).ge,List.map_snd_zip (length_span _ _).le⟩

theorem pairs_fromDevice (hdir : c.dir = .fromDevice) (pos : BitVec 64)
    (hosts : List (BitVec 64)) :
    (pairs c pos hosts).map Prod.fst = span pos hosts.length ∧
      (pairs c pos hosts).map Prod.snd = hosts := by
  unfold pairs
  rw [hdir]
  exact ⟨List.map_fst_zip (length_span _ _).le,List.map_snd_zip (length_span _ _).ge⟩

theorem CopiedUpTo.map_eq {ps : List (BitVec 64 × BitVec 64)} {source target target' : Memory}
    {n : ℕ} (h : CopiedUpTo ps source target target' n) (hnodup : (ps.map Prod.snd).Nodup) :
    ((ps.map Prod.snd).take n).map target' = ((ps.map Prod.fst).take n).map source := by
  rw [← List.map_take,← List.map_take,List.map_map,List.map_map]
  exact List.map_congr_left fun p hp => h.placed hnodup hp

theorem take_userAddresses (up : UserPages) (buf : ℕ) {n m : ℕ} (h : n ≤ m) :
    (userAddresses up buf m).take n = userAddresses up buf n := by
  rw [← Nat.add_sub_cancel' h,userAddresses_add,
    List.take_left' (length_userAddresses up buf n)]

/-- The bytes moved so far, in the terms of the two sides. -/
theorem copied_toDevice (hdir : c.dir = .toDevice) {pos : BitVec 64} {buf size n : ℕ}
    {source target target' : Memory} (hsize : size ≤ 2^64)
    (h : CopiedUpTo (pairs c pos (userAddresses up buf size)) source target target' n) :
    n ≤ size ∧ (span pos n).map target' = (userAddresses up buf n).map source ∧
      ∀ a ∉ span pos size, target' a = target a := by
  have hp := pairs_toDevice hdir pos (userAddresses up buf size)
  rw [length_userAddresses] at hp
  have hn := h.le_length
  rw [length_pairs,length_userAddresses] at hn
  refine ⟨hn,?_,?_⟩
  · have hmap := CopiedUpTo.map_eq h (by rw [hp.2]; exact nodup_span pos hsize)
    rwa [hp.1,hp.2,take_span pos hn,take_userAddresses up buf hn] at hmap
  · intro a ha
    exact h.outside (by rwa [hp.2])

theorem copied_fromDevice (hdir : c.dir = .fromDevice) {pos : BitVec 64} {buf size n : ℕ}
    {source target target' : Memory} (hnodup : (userAddresses up buf size).Nodup)
    (h : CopiedUpTo (pairs c pos (userAddresses up buf size)) source target target' n) :
    n ≤ size ∧ (userAddresses up buf n).map target' = (span pos n).map source ∧
      ∀ a ∉ userAddresses up buf size, target' a = target a := by
  have hp := pairs_fromDevice hdir pos (userAddresses up buf size)
  rw [length_userAddresses] at hp
  have hn := h.le_length
  rw [length_pairs,length_userAddresses] at hn
  refine ⟨hn,?_,?_⟩
  · have hmap := CopiedUpTo.map_eq h (by rwa [hp.2])
    rwa [hp.1,hp.2,take_span pos hn,take_userAddresses up buf hn] at hmap
  · intro a ha
    exact h.outside (by rwa [hp.2])

theorem copied_of_moved {pos : BitVec 64} {buf count : ℕ} {source target target' : Memory}
    {rv : ℤ} (h : (rv < 0 ∧ target' = target) ∨
      Moved (pairs c pos (userAddresses up buf count)) source target target' rv) :
    ∃ n, CopiedUpTo (pairs c pos (userAddresses up buf count)) source target target' n ∧
      (0 ≤ rv → rv = n) := by
  rcases h with ⟨hneg,rfl⟩ | ⟨n,hcopied,hrv⟩
  · exact ⟨0,copiedUpTo_none _ _ _,fun h => absurd hneg (not_lt.mpr h)⟩
  · refine ⟨n,hcopied,fun hpos => ?_⟩
    rcases hrv with ⟨_,hrv⟩ | ⟨_,err,herr,hrv⟩
    · exact hrv
    · split_ifs at hrv
      · omega
      · exact hrv

/-- What a call returns is how many bytes have been moved, from the start of the buffer
and from the file position on: a write puts them on the device, a read into the pages of
the user, and nothing else on the written side changes. -/
theorem charSgdma_places (al : AlignRegs) (up : UserPages) (dm : DmaMap) (hw : Hardware c)
    (offline : Bool) (e : Engine c) (buf count pos : BitVec 64) (host card : Memory)
    (hinc : c.nonIncrAddr = false) (hmax : descBlenMax < 2^28) (hspace : InSpace buf count)
    (hcount : count.toNat ≤ rwMaxSize) :
    let w := charSgdmaReadWrite descBlenMax al up dm hw offline e buf count pos true host card
    let r := charSgdmaReadWrite descBlenMax al up dm hw offline e buf count pos false card host
    let user := userAddresses up buf.toNat
    (c.dir = .toDevice →
      (∀ a ∉ span pos count.toNat, w.memory a = card a) ∧
      (0 ≤ w.rv → ∃ n ≤ count.toNat, w.rv = n ∧
        (span pos n).map w.memory = (user n).map host)) ∧
    (c.dir = .fromDevice → (user count.toNat).Nodup →
      (∀ a ∉ user count.toNat, r.memory a = host a) ∧
      (0 ≤ r.rv → ∃ n ≤ count.toNat, r.rv = n ∧
        (user n).map r.memory = (span pos n).map card)) := by
  have hw' := charSgdmaReadWrite_moved al up dm hw offline e buf count pos true host card
    hinc hmax hspace hcount
  have hr' := charSgdmaReadWrite_moved al up dm hw offline e buf count pos false card host
    hinc hmax hspace hcount
  refine ⟨fun hdir => ?_,fun hdir hnodup => ?_⟩
  · rcases copied_of_moved hw' with ⟨n,hcopied,hrv⟩
    have hsides := copied_toDevice hdir (by have := count.isLt; omega) hcopied
    exact ⟨hsides.2.2,fun h => ⟨n,hsides.1,hrv h,hsides.2.1⟩⟩
  · rcases copied_of_moved hr' with ⟨n,hcopied,hrv⟩
    have hsides := copied_fromDevice hdir hnodup hcopied
    exact ⟨hsides.2.2,fun h => ⟨n,hsides.1,hrv h,hsides.2.1⟩⟩

/-- All pages can be pinned, and neighbours are different pages. -/
structure UserPages.Present (up : UserPages) : Prop where
  pin : ∀ buf n, up.getUserPages buf n = .ok ((List.range' (buf.toNat/pageSize) n).map up.frame)
  distinct : ∀ p, up.frame p ≠ up.frame (p+1)

theorem duplicatePages_range (h : ∀ p, up.frame p ≠ up.frame (p+1)) (p n : ℕ) :
    duplicatePages ((List.range' p n).map up.frame) = false := by
  induction n generalizing p with
  | zero => rfl
  | succ n ih =>
      cases n with
      | zero => rfl
      | succ n =>
          have hne := h p
          have hrest := ih (p+1)
          rw [List.range'_succ,List.map_cons] at hrest
          rw [List.range'_succ,List.range'_succ,List.map_cons,List.map_cons,duplicatePages,hrest,
            Bool.or_false]
          exact beq_false_of_ne hne

theorem mapUserBufToSgl_present (h : up.Present) {buf len : BitVec 64}
    (hspace : InSpace buf len) (hlen : len.toNat < 2^32) (hpos : 0 < len.toNat) :
    ∃ sgl, mapUserBufToSgl up buf len = .ok sgl := by
  have hspace' : buf.toNat + len.toNat + 4096 ≤ 2^64 := hspace
  have hpages := pagesNr_eq hspace hlen
  have hrest :
      (sglOfPages ((List.range' (buf.toNat/pageSize) (pagesNr buf len)).map up.frame) buf len).2 =
        0 := (sglOfPages_addresses buf len _ hpages hlen (by omega)).1
  refine ⟨(sglOfPages ((List.range' (buf.toNat/pageSize) (pagesNr buf len)).map up.frame)
    buf len).1,?_⟩
  rw [mapUserBufToSgl,if_neg (by omega),h.pin]
  simp only
  rw [if_neg (by simp),if_neg (by rw [duplicatePages_range h.distinct]; exact Bool.false_ne_true),
    if_neg (not_not.mpr hrest)]

theorem lsb_eq (x : BitVec 64) {k : ℕ} (hk : k < 32) :
    (x.setWidth 32 &&& (BitVec.ofNat 32 (2^k) - 1)).toNat = x.toNat % 2^k := by
  have hpow : 2^k < 2^32 := Nat.pow_lt_pow_right (by norm_num) hk
  have hone : 1 ≤ 2^k := Nat.one_le_two_pow
  have hmask : (BitVec.ofNat 32 (2^k) - 1).toNat = 2^k-1 := by
    rw [BitVec.toNat_sub_of_le (by
      rw [BitVec.le_def,BitVec.toNat_ofNat,Nat.mod_eq_of_lt hpow]
      exact hone),BitVec.toNat_ofNat,Nat.mod_eq_of_lt hpow]
    rfl
  rw [BitVec.toNat_and,hmask,Nat.and_two_pow_sub_one_eq_mod,BitVec.toNat_setWidth,
    Nat.mod_mod_of_dvd _ (pow_dvd_pow 2 hk.le)]

/-- The engine's alignment is a power of two, and buffer and device address agree in it. -/
structure AlignRegs.Agree (al : AlignRegs) (buf pos : BitVec 64) : Prop where
  power : ∃ k < 32, al.addrAlign = BitVec.ofNat 32 (2^k) ∧
    buf.toNat % 2^k = pos.toNat % 2^k

theorem AlignRegs.Agree.check {al : AlignRegs} {buf pos : BitVec 64} (h : al.Agree buf pos)
    (hinc : c.nonIncrAddr = false) (count : BitVec 64) :
    checkTransferAlign c al buf count pos true = 0 := by
  rcases h.power with ⟨k,hk,halign,hmod⟩
  have heq : buf.setWidth 32 &&& (al.addrAlign - 1) = pos.setWidth 32 &&& (al.addrAlign - 1) := by
    apply BitVec.eq_of_toNat_eq
    rw [halign,lsb_eq buf hk,lsb_eq pos hk,hmod]
  unfold checkTransferAlign
  simp only [hinc,heq,ne_eq,not_true_eq_false,if_false,Bool.false_eq_true]

theorem AlignRegs.Agree.add {al : AlignRegs} {buf pos : BitVec 64} (h : al.Agree buf pos)
    (x : BitVec 64) : al.Agree (buf+x) (pos+x) := by
  rcases h.power with ⟨k,hk,halign,hmod⟩
  refine ⟨k,hk,halign,?_⟩
  have hdvd : 2^k ∣ 2^64 := pow_dvd_pow 2 (by omega)
  rw [BitVec.toNat_add,BitVec.toNat_add,Nat.mod_mod_of_dvd _ hdvd,Nat.mod_mod_of_dvd _ hdvd]
  exact Nat.ModEq.add_right x.toNat hmod

/-- The mapping never fails, and joining entries makes them fewer. -/
structure DmaMap.Works (dm : DmaMap) : Prop where
  nonempty : ∀ sgl, sgl ≠ [] → dm.mapSg sgl ≠ []
  length_le : ∀ sgl, (dm.mapSg sgl).length ≤ sgl.length

omit [NeZero descBlenMax] in
theorem noWrap_call {sgl : List Sg} {buf count : ℕ} (hmin : 4096 ≤ descBlenMax)
    (hmax : descBlenMax < 2^28) (hcount : count ≤ rwMaxSize)
    (hlength : (addresses sgl).length = count)
    (hpages : sgl.length ≤ (buf % 4096 + count + 4095)/4096) : NoWrap descBlenMax sgl := by
  have hsize : count ≤ 0x7ffff000 := hcount
  refine ⟨fun sg hsg => ?_,?_⟩
  · have hle := dmaLen_le hsg
    omega
  · have hextra := extra_le hmin sgl
    rw [sizeofRequestCb,sizeofSwDesc]
    omega

/-- With its pages present and mapped and a reliable engine a call moves all it is given. -/
theorem charSgdma_reliable {al : AlignRegs} {dm : DmaMap} {hw : Hardware c} (hrel : hw.Reliable)
    (hup : up.Present) (hdm : dm.Works) (e : Engine c)
    {buf count pos : BitVec 64} {write : Bool} (source target : Memory)
    (hinc : c.nonIncrAddr = false) (hdir : c.dir = if write then .toDevice else .fromDevice)
    (halign : al.Agree buf pos) (hmin : 4096 ≤ descBlenMax) (hmax : descBlenMax < 2^28)
    (hspace : InSpace buf count)
    (hpos : 0 < count.toNat) (hcount : count.toNat ≤ rwMaxSize) :
    (charSgdmaReadWrite descBlenMax al up dm hw false e buf count pos write source target).rv =
      (count.toNat : ℤ) := by
  have hsize : count.toNat ≤ 0x7ffff000 := hcount
  rcases mapUserBufToSgl_present hup hspace (by omega) hpos with ⟨sgl,hsgl⟩
  have ⟨haddr,hpages⟩ := mapUserBufToSgl_ok hspace (by omega) hsgl
  have hne : sgl ≠ [] := by
    intro hnil
    have hlength := congrArg List.length haddr
    rw [hnil,length_userAddresses] at hlength
    exact absurd hlength (by show ¬0 = _; omega)
  have hmapped := (dm.mapped sgl).resolve_left (hdm.nonempty sgl hne)
  rw [haddr] at hmapped
  have hlength : (addresses (dm.mapSg sgl)).length = count.toNat := by
    rw [hmapped,length_userAddresses]
  have hwrap := noWrap_call hmin hmax hcount hlength (hpages ▸ hdm.length_le sgl)
  unfold charSgdmaReadWrite
  rw [if_neg (not_not.mpr hdir),if_neg (not_not.mpr (halign.check hinc count)),hsgl]
  simp only
  rw [submit_reliable hrel e pos _ source target write hdir (by omega) (hdm.nonempty sgl hne) hwrap
    (by omega),hlength]

/-- Pages that stand in the order of their numbers, all of them there. -/
def UserPages.linear : UserPages where
  frame p := BitVec.ofNat 64 (p*pageSize)
  getUserPages buf n := .ok ((List.range' (buf.toNat/pageSize) n).map fun p =>
    BitVec.ofNat 64 (p*pageSize))
  pinned buf n ps h := by
    cases h
    exact ⟨n,le_rfl,rfl⟩
  error_neg buf n rv h := by contradiction

theorem linear_present : UserPages.linear.Present := by
  refine ⟨fun _ _ => rfl,fun p h => ?_⟩
  have hval : (BitVec.ofNat 64 (p*4096)).toNat = (BitVec.ofNat 64 ((p+1)*4096)).toNat :=
    congrArg BitVec.toNat h
  rw [BitVec.toNat_ofNat,BitVec.toNat_ofNat] at hval
  omega

theorem linear_addresses (buf n : ℕ) :
    userAddresses .linear buf n = span (BitVec.ofNat 64 buf) n := by
  apply List.map_congr_left
  intro j _
  show BitVec.ofNat 64 ((buf+j)/pageSize*pageSize) + BitVec.ofNat 64 ((buf+j)%pageSize) = _
  rw [← BitVec.ofNat_add,Nat.div_add_mod',BitVec.ofNat_add]

/-- Every entry is mapped as it stands. -/
def DmaMap.direct : DmaMap where
  mapSg sgl := sgl
  mapped _ := Or.inr rfl

theorem direct_works : DmaMap.direct.Works := ⟨fun _ h => h,fun _ => le_rfl⟩

/-- Five thousand bytes from the middle of a page. -/
theorem charSgdma_places_pages :
    let c : Channel := ⟨0x1000,2048,.toDevice,false,by decide,by decide⟩
    let e : Engine c := ⟨fun _ => ⟨0,0,0,0,0,0,0,0⟩,⟨2047,by decide⟩,0⟩
    let host : Memory := fun a => a.setWidth 8
    let w := charSgdmaReadWrite 0xfffffff ⟨1,1⟩ .linear .direct (Hardware.follow c) false e 0x1800
      5000 0x40 true host fun _ => 0
    ∃ n ≤ (5000 : ℕ), w.rv = n ∧
      (span 0x40 n).map w.memory = (userAddresses .linear 0x1800 n).map host := by
  intro c e host w
  have hspace : InSpace 0x1800 5000 := by
    unfold InSpace
    decide
  have hagree : AlignRegs.Agree ⟨1,1⟩ 0x1800 0x40 := ⟨0,by decide,rfl,by decide⟩
  have hrv : w.rv = (5000 : ℕ) :=
    charSgdma_reliable (follow_reliable c) linear_present direct_works e host (fun _ => 0) rfl
      rfl hagree (by decide) (by decide) hspace (by decide) (by decide)
  exact ((charSgdma_places _ _ _ _ _ _ _ _ _ host (fun _ => 0) rfl (by decide) hspace
    (by decide)).1 rfl).2 (by rw [hrv]; exact Int.natCast_nonneg _)

end FpgaTest.XdmaCharDevice
