import FpgaTest.XdmaCharDevice

/-!
# The buffers of the DMA tools

`write_from_buffer` and `read_to_buffer` move a buffer of any size in calls of at
most `RW_MAX_SIZE` bytes. They seek before every call whose offset is not zero;
at offset zero they rely on the position that the file has. The two functions
differ only in the call they make.
-/
namespace FpgaTest.DmaUtils
open ByteCopies XdmaRequest XdmaTransfer XdmaSubmit XdmaCharDevice

/-- An open device: its engine, the memory the engine writes and the file position. -/
structure File (c : Channel) where
  engine : Engine c
  memory : Memory
  pos : BitVec 64

/-- `read` or `write`: buffer, count and position. -/
abbrev Call (c : Channel) :=
  Engine c → BitVec 64 → BitVec 64 → BitVec 64 → Memory → Submitted c

variable {c : Channel}

def seek (offset : BitVec 64) (pos : BitVec 64) : Except ℤ (BitVec 64) :=
  if offset ≠ 0 then charSgdmaLlseek pos offset 0 else .ok pos

/-- The loop, with `count` of `size` bytes done. -/
def bufferLoop (call : Call c) (size count : ℕ) (buf offset : BitVec 64) (f : File c) :
    File c × ℤ :=
  if count < size then
    let bytes := min (size - count) rwMaxSize
    match seek offset f.pos with
    | .error _ => (f,-eio)
    | .ok pos =>
        let r := call f.engine buf (BitVec.ofNat 64 bytes) pos f.memory
        if r.rv < 0 then (⟨r.engine,r.memory,pos⟩,-eio)
        else if r.rv ≠ bytes then (⟨r.engine,r.memory,pos⟩,count + r.rv)
        else
          bufferLoop call size (count+bytes) (buf + BitVec.ofNat 64 bytes)
            (offset + BitVec.ofNat 64 bytes) ⟨r.engine,r.memory,pos⟩
  else (f,count)
termination_by size - count
decreasing_by
  have hmax : 0 < rwMaxSize := by decide
  omega

section Calls
variable (descBlenMax : ℕ) [NeZero descBlenMax] (al : AlignRegs) (up : UserPages) (dm : DmaMap)
  (hw : Hardware c) (offline : Bool)

def readToBuffer (card : Memory) (size : ℕ) (buffer base : BitVec 64) (f : File c) :
    File c × ℤ :=
  bufferLoop (fun e buf count pos host =>
    charSgdmaReadWrite descBlenMax al up dm hw offline e buf count pos false card host)
    size 0 buffer base f

def writeFromBuffer (host : Memory) (size : ℕ) (buffer base : BitVec 64) (f : File c) :
    File c × ℤ :=
  bufferLoop (fun e buf count pos card =>
    charSgdmaReadWrite descBlenMax al up dm hw offline e buf count pos true host card)
    size 0 buffer base f

end Calls

/-- A call that moves what it says, from user memory or into it. -/
def Moves (call : Call c) (up : UserPages) (source : Memory) : Prop :=
  ∀ (e : Engine c) (buf count pos : BitVec 64) (target : Memory), InSpace buf count →
    count.toNat ≤ rwMaxSize →
    ((call e buf count pos target).rv < 0 ∧ (call e buf count pos target).memory = target) ∨
      Moved (pairs c pos (userAddresses up buf.toNat count.toNat)) source target
        (call e buf count pos target).memory (call e buf count pos target).rv

/-- Where a call with this offset is made. -/
def start (offset pos : BitVec 64) : BitVec 64 := if offset = 0 then pos else offset

theorem seek_ok {offset pos p : BitVec 64} (h : seek offset pos = .ok p) :
    p = start offset pos ∧ offset.msb = false := by
  unfold seek at h
  unfold start
  by_cases hzero : offset = 0
  · rw [if_neg (not_not.mpr hzero)] at h
    cases h
    rw [if_pos hzero]
    exact ⟨rfl,by rw [hzero]; rfl⟩
  · rw [if_pos hzero,charSgdmaLlseek] at h
    split at h
    · contradiction
    · cases h
      rw [if_neg hzero]
      exact ⟨rfl,by simpa using ‹¬offset.msb = true›⟩

theorem start_eq {offset pos : BitVec 64} (h : offset ≠ 0 ∨ pos = 0) :
    start offset pos = offset := by
  unfold start
  split_ifs with hzero
  · rw [h.resolve_left (not_not.mpr hzero),hzero]
  · rfl

theorem offset_ne_zero {offset : BitVec 64} {bytes : ℕ} (hmsb : offset.msb = false)
    (hpos : 0 < bytes) (hmax : bytes ≤ rwMaxSize) : offset + BitVec.ofNat 64 bytes ≠ 0 := by
  intro hzero
  have hlt : offset.toNat < 2^63 := by
    have := BitVec.msb_eq_false_iff_two_mul_lt.mp hmsb
    omega
  have hbytes : bytes ≤ 0x7ffff000 := hmax
  have hval := congrArg BitVec.toNat hzero
  rw [BitVec.toNat_add,BitVec.toNat_ofNat,Nat.add_mod_mod,Nat.mod_eq_of_lt (by omega)] at hval
  have : (0 : BitVec 64).toNat = 0 := rfl
  omega

variable {call : Call c} {up : UserPages} {source : Memory}

theorem pairs_split (c : Channel) (up : UserPages) (buf offset : BitVec 64) {bytes left : ℕ}
    (hle : bytes ≤ left)
    (hspace : buf.toNat + left + pageSize ≤ 2^64) :
    pairs c offset (userAddresses up buf.toNat left) =
      pairs c offset (userAddresses up buf.toNat bytes) ++
        pairs c (offset + BitVec.ofNat 64 bytes)
          (userAddresses up (buf + BitVec.ofNat 64 bytes).toNat (left-bytes)) := by
  have hspace' : buf.toNat + left + 4096 ≤ 2^64 := hspace
  have hbuf : (buf + BitVec.ofNat 64 bytes).toNat = buf.toNat + bytes := by
    rw [BitVec.toNat_add,BitVec.toNat_ofNat,Nat.add_mod_mod,Nat.mod_eq_of_lt (by omega)]
  conv_lhs => rw [← Nat.add_sub_cancel' hle,userAddresses_add,pairs_append,length_userAddresses]
  rw [hbuf]

/-- The size of the next call. -/
def chunk (size count : ℕ) : ℕ := min (size - count) rwMaxSize

theorem chunk_bounds {size count : ℕ} (h : count < size) :
    0 < chunk size count ∧ chunk size count ≤ size - count ∧
      chunk size count ≤ rwMaxSize := by
  have hmax : 0 < rwMaxSize := by decide
  unfold chunk
  omega

theorem toNat_add_chunk {buf : BitVec 64} {left bytes : ℕ} (hle : bytes ≤ left)
    (hspace : buf.toNat + left + pageSize ≤ 2^64) :
    (buf + BitVec.ofNat 64 bytes).toNat = buf.toNat + bytes := by
  have hspace' : buf.toNat + left + 4096 ≤ 2^64 := hspace
  rw [BitVec.toNat_add,BitVec.toNat_ofNat,Nat.add_mod_mod,Nat.mod_eq_of_lt (by omega)]

/-- One round: the seek fails, or the call does, or it is short and ends the loop, or
the loop goes on behind it. -/
inductive Round (call : Call c) (up : UserPages) (source : Memory) (size count : ℕ)
    (buf offset : BitVec 64) (f : File c) (result : File c × ℤ) : Prop
  | noSeek : result = (f,-eio) → Round call up source size count buf offset f result
  | made (g : File c) (n : ℕ) : offset.msb = false → g.pos = start offset f.pos →
      CopiedUpTo (pairs c (start offset f.pos) (userAddresses up buf.toNat (chunk size count)))
        source f.memory g.memory n →
      (result = (g,-eio) ∨ n < chunk size count ∧ result = (g,((count + n : ℕ) : ℤ)) ∨
        n = chunk size count ∧ result =
          bufferLoop call size (count + chunk size count)
            (buf + BitVec.ofNat 64 (chunk size count))
            (offset + BitVec.ofNat 64 (chunk size count)) g) →
      Round call up source size count buf offset f result

theorem bufferLoop_round (hcall : Moves call up source) {size count : ℕ}
    (buf offset : BitVec 64) (f : File c) (hlt : count < size)
    (hspace : buf.toNat + (size-count) + pageSize ≤ 2^64) :
    Round call up source size count buf offset f (bufferLoop call size count buf offset f) := by
  have hbounds := chunk_bounds hlt
  have hrw : rwMaxSize ≤ 2^31 := by decide
  have hspace' : buf.toNat + (size-count) + 4096 ≤ 2^64 := hspace
  have hof : (BitVec.ofNat 64 (chunk size count)).toNat = chunk size count := by
    rw [BitVec.toNat_ofNat,Nat.mod_eq_of_lt (by omega)]
  rw [bufferLoop,if_pos hlt]
  simp only
  rw [← chunk]
  cases hseek : seek offset f.pos with
  | error _ => exact .noSeek rfl
  | ok pos =>
      obtain ⟨rfl,hmsb⟩ := seek_ok hseek
      have hmoved := hcall f.engine buf (BitVec.ofNat 64 (chunk size count))
        (start offset f.pos) f.memory (show _ ≤ _ by rw [hof]; show _ + 4096 ≤ _; omega)
        (by omega)
      rw [hof] at hmoved
      rcases copied_of_moved hmoved with ⟨n,hcopied,hrv⟩
      simp only
      generalize call f.engine buf (BitVec.ofNat 64 (chunk size count)) (start offset f.pos)
        f.memory = r at hcopied hrv ⊢
      refine .made ⟨r.engine,r.memory,start offset f.pos⟩ n hmsb rfl hcopied ?_
      by_cases hneg : r.rv < 0
      · rw [if_pos hneg]
        exact Or.inl rfl
      have hrv := hrv (not_lt.mp hneg)
      have hle := hcopied.le_length
      rw [length_pairs,length_userAddresses] at hle
      rw [if_neg hneg,hrv]
      by_cases hshort : n = chunk size count
      · rw [if_neg (by rw [hshort]; simp)]
        exact Or.inr (Or.inr ⟨hshort,rfl⟩)
      · rw [if_pos (by exact_mod_cast hshort)]
        exact Or.inr (Or.inl ⟨by omega,by push_cast; rfl⟩)

/-- Either everything, or a first part of it and how much that was, or an error. -/
theorem bufferLoop_copied (hcall : Moves call up source) (size count : ℕ)
    (buf offset : BitVec 64) (f : File c) (hcount : count ≤ size)
    (hspace : buf.toNat + (size-count) + pageSize ≤ 2^64) (hstart : offset ≠ 0 ∨ f.pos = 0) :
    ∃ n, CopiedUpTo (pairs c offset (userAddresses up buf.toNat (size-count))) source f.memory
        (bufferLoop call size count buf offset f).1.memory n ∧
      ((bufferLoop call size count buf offset f).2 = -eio ∨
        (bufferLoop call size count buf offset f).2 = ((count + n : ℕ) : ℤ)) := by
  induction hμ : size - count using Nat.strong_induction_on
    generalizing count buf offset f with
  | _ μ ih =>
      subst hμ
      by_cases hlt : count < size
      · have hbounds := chunk_bounds hlt
        have hspace' : buf.toNat + (size-count) + 4096 ≤ 2^64 := hspace
        have hsplit := pairs_split c up buf offset hbounds.2.1 hspace
        have hround := bufferLoop_round hcall buf offset f hlt hspace
        generalize bufferLoop call size count buf offset f = result at hround ⊢
        cases hround with
        | noSeek hresult =>
            rw [hresult]
            exact ⟨0,copiedUpTo_none _ _ _,Or.inl rfl⟩
        | made g n hmsb _ hcopied hnext =>
            rw [start_eq hstart] at hcopied
            rcases hnext with rfl | ⟨hshort,rfl⟩ | ⟨rfl,rfl⟩
            · rw [hsplit]
              exact ⟨n,hcopied.extend _,Or.inl rfl⟩
            · rw [hsplit]
              exact ⟨n,hcopied.extend _,Or.inr rfl⟩
            · have hleft : size - (count + chunk size count) =
                  size - count - chunk size count := by omega
              have hbuf := toNat_add_chunk hbounds.2.1 hspace
              rcases ih (size - (count + chunk size count)) (by omega)
                (count + chunk size count) (buf + BitVec.ofNat 64 (chunk size count))
                (offset + BitVec.ofNat 64 (chunk size count)) g (by omega)
                (by rw [hbuf]; show _ + 4096 ≤ _; omega)
                (Or.inl (offset_ne_zero hmsb hbounds.1 hbounds.2.2)) rfl with ⟨k,hrest,hend⟩
              have hlength : (pairs c offset (userAddresses up buf.toNat
                  (chunk size count))).length = chunk size count := by
                rw [length_pairs,length_userAddresses]
              rw [hleft] at hrest
              have hall := hcopied.trans hlength.symm hrest
              rw [← hsplit] at hall
              exact ⟨_,hall,hend.imp_right fun h => by rw [h,Nat.add_assoc]⟩
      · have hdone : size - count = 0 := by omega
        rw [bufferLoop,if_neg hlt]
        exact ⟨0,copiedUpTo_none _ _ _,Or.inr rfl⟩

theorem bufferLoop_whole (hcall : Moves call up source) {size : ℕ} {buf base : BitVec 64}
    {f : File c} (hspace : buf.toNat + size + pageSize ≤ 2^64) (hstart : base ≠ 0 ∨ f.pos = 0)
    (hdone : (bufferLoop call size 0 buf base f).2 = (size : ℤ)) :
    CopiedUpTo (pairs c base (userAddresses up buf.toNat size)) source f.memory
      (bufferLoop call size 0 buf base f).1.memory size := by
  rcases bufferLoop_copied hcall size 0 buf base f (Nat.zero_le _) hspace hstart with
    ⟨n,hcopied,hrv⟩
  have hneg : -eio < 0 := by decide
  have hn : n = size := by rcases hrv with hrv | hrv <;> omega
  rw [hn] at hcopied
  exact hcopied

section Driver
variable {descBlenMax : ℕ} [NeZero descBlenMax] {al : AlignRegs} {dm : DmaMap} {hw : Hardware c}
  {offline : Bool}

theorem moves_charSgdma (hinc : c.nonIncrAddr = false) (hmax : descBlenMax < 2^28)
    (write : Bool) (source : Memory) :
    Moves (fun e buf count pos target =>
      charSgdmaReadWrite descBlenMax al up dm hw offline e buf count pos write source target)
      up source :=
  fun e buf count pos target hspace hcount =>
    charSgdmaReadWrite_moved al up dm hw offline e buf count pos write source target hinc hmax
      hspace hcount

end Driver

/-- A call that moves everything when buffer and position agree in the alignment. -/
def Complete (call : Call c) (al : AlignRegs) : Prop :=
  ∀ (e : Engine c) (buf count pos : BitVec 64) (target : Memory), InSpace buf count →
    0 < count.toNat → count.toNat ≤ rwMaxSize → al.Agree buf pos →
    (call e buf count pos target).rv = (count.toNat : ℤ)

theorem seek_of_nonneg {offset pos : BitVec 64} (hmsb : offset.msb = false) :
    seek offset pos = .ok (start offset pos) := by
  unfold seek start
  by_cases hzero : offset = 0
  · rw [if_neg (not_not.mpr hzero),if_pos hzero]
  · rw [if_pos hzero,if_neg hzero,charSgdmaLlseek,hmsb]
    rfl

theorem bufferLoop_complete {al : AlignRegs} (hcall : Complete call al) (size count : ℕ)
    (buf offset : BitVec 64) (f : File c) (hcount : count ≤ size)
    (hspace : buf.toNat + (size-count) + pageSize ≤ 2^64)
    (hend : offset.toNat + (size-count) ≤ 2^63) (hfirst : al.Agree buf (start offset f.pos))
    (hagree : al.Agree buf offset) :
    (bufferLoop call size count buf offset f).2 = (size : ℤ) := by
  induction hμ : size - count using Nat.strong_induction_on
    generalizing count buf offset f with
  | _ μ ih =>
      subst hμ
      by_cases hlt : count < size
      · have hbounds := chunk_bounds hlt
        have hrw : rwMaxSize ≤ 2^31 := by decide
        have hspace' : buf.toNat + (size-count) + 4096 ≤ 2^64 := hspace
        have hof : (BitVec.ofNat 64 (chunk size count)).toNat = chunk size count := by
          rw [BitVec.toNat_ofNat,Nat.mod_eq_of_lt (by omega)]
        have hmsb : offset.msb = false := BitVec.msb_eq_false_iff_two_mul_lt.mpr (by omega)
        have hbuf := toNat_add_chunk hbounds.2.1 hspace
        have hrv := hcall f.engine buf (BitVec.ofNat 64 (chunk size count))
          (start offset f.pos) f.memory (show _ ≤ _ by rw [hof]; show _ + 4096 ≤ _; omega)
          (by omega) (by omega) hfirst
        rw [hof] at hrv
        rw [bufferLoop,if_pos hlt]
        simp only
        rw [← chunk,seek_of_nonneg hmsb]
        simp only
        rw [hrv,if_neg (not_lt.mpr (Int.natCast_nonneg _)),if_neg (not_not.mpr rfl)]
        have hoffset : (offset + BitVec.ofNat 64 (chunk size count)).toNat =
            offset.toNat + chunk size count := by
          rw [BitVec.toNat_add,hof,Nat.mod_eq_of_lt (by omega)]
        have hnext : offset + BitVec.ofNat 64 (chunk size count) ≠ 0 :=
          offset_ne_zero hmsb hbounds.1 hbounds.2.2
        exact ih (size - (count + chunk size count)) (by omega) _ _ _ _ (by omega)
          (by rw [hbuf]; show _ + 4096 ≤ _; omega) (by omega)
          (by rw [start_eq (Or.inl hnext)]; exact hagree.add _) (hagree.add _) rfl
      · have hdone : count = size := by omega
        rw [bufferLoop,if_neg hlt,hdone]

section Reliable
variable {descBlenMax : ℕ} [NeZero descBlenMax] {al : AlignRegs} {dm : DmaMap} {hw : Hardware c}

theorem complete_charSgdma (hrel : hw.Reliable) (hup : up.Present) (hdm : dm.Works)
    (hinc : c.nonIncrAddr = false) (hmin : 4096 ≤ descBlenMax) (hmax : descBlenMax < 2^28)
    (write : Bool) (hdir : c.dir = if write then .toDevice else .fromDevice) (source : Memory) :
    Complete (fun e buf count pos target =>
      charSgdmaReadWrite descBlenMax al up dm hw false e buf count pos write source target) al :=
  fun e _ _ _ target hspace hpos hcount hagree =>
    charSgdma_reliable hrel hup hdm e source target hinc hdir hagree hmin hmax hspace hpos
      hcount

variable {size : ℕ} {buf base : BitVec 64} {f : File c}

theorem writeFromBuffer_full (hrel : hw.Reliable) (hup : up.Present) (hdm : dm.Works)
    (hinc : c.nonIncrAddr = false) (hmin : 4096 ≤ descBlenMax) (hmax : descBlenMax < 2^28)
    (hdir : c.dir = .toDevice) (host : Memory) (hspace : buf.toNat + size + pageSize ≤ 2^64)
    (hend : base.toNat + size ≤ 2^63) (hfirst : al.Agree buf (start base f.pos))
    (hagree : al.Agree buf base) :
    (writeFromBuffer descBlenMax al up dm hw false host size buf base f).2 = (size : ℤ) :=
  bufferLoop_complete (complete_charSgdma hrel hup hdm hinc hmin hmax true hdir host) size 0 buf
    base f (Nat.zero_le _) hspace hend hfirst hagree

theorem readToBuffer_full (hrel : hw.Reliable) (hup : up.Present) (hdm : dm.Works)
    (hinc : c.nonIncrAddr = false) (hmin : 4096 ≤ descBlenMax) (hmax : descBlenMax < 2^28)
    (hdir : c.dir = .fromDevice) (card : Memory) (hspace : buf.toNat + size + pageSize ≤ 2^64)
    (hend : base.toNat + size ≤ 2^63) (hfirst : al.Agree buf (start base f.pos))
    (hagree : al.Agree buf base) :
    (readToBuffer descBlenMax al up dm hw false card size buf base f).2 = (size : ℤ) :=
  bufferLoop_complete (complete_charSgdma hrel hup hdm hinc hmin hmax false hdir card) size 0 buf
    base f (Nat.zero_le _) hspace hend hfirst hagree

end Reliable

theorem agree_one (buf pos : BitVec 64) : AlignRegs.Agree ⟨1,1⟩ buf pos :=
  ⟨0,by decide,rfl,by rw [pow_zero,Nat.mod_one,Nat.mod_one]⟩

/-- With reliable engines the whole buffer is written, the whole buffer is read, and what
is read is what was written. -/
theorem write_read_complete {cw cr : Channel} (bw br : ℕ) [NeZero bw] [NeZero br]
    (aw ar : AlignRegs) (uw ur : UserPages) (dw dr : DmaMap) (hw : Hardware cw)
    (hr : Hardware cr) (host host' card : Memory) (size : ℕ) (bufw bufr base : BitVec 64)
    (ew : Engine cw) (er : Engine cr) (pw pr : BitVec 64) (hrelw : hw.Reliable)
    (hrelr : hr.Reliable) (huw : uw.Present) (hur : ur.Present)
    (hdw : dw.Works) (hdr : dr.Works)
    (hdirw : cw.dir = .toDevice) (hdirr : cr.dir = .fromDevice)
    (hincw : cw.nonIncrAddr = false) (hincr : cr.nonIncrAddr = false)
    (hbw : 4096 ≤ bw ∧ bw < 2^28) (hbr : 4096 ≤ br ∧ br < 2^28)
    (hspacew : bufw.toNat + size + pageSize ≤ 2^64)
    (hspacer : bufr.toNat + size + pageSize ≤ 2^64) (hend : base.toNat + size ≤ 2^63)
    (hagreew : aw.Agree bufw base) (hagreer : ar.Agree bufr base)
    (hstart : base ≠ 0 ∨ (pw = 0 ∧ pr = 0))
    (hnodup : (userAddresses ur bufr.toNat size).Nodup) :
    let w := writeFromBuffer bw aw uw dw hw false host size bufw base ⟨ew,card,pw⟩
    let r := readToBuffer br ar ur dr hr false w.1.memory size bufr base ⟨er,host',pr⟩
    w.2 = (size : ℤ) ∧ r.2 = (size : ℤ) ∧
      (userAddresses ur bufr.toNat size).map r.1.memory =
        (userAddresses uw bufw.toNat size).map host := by
  intro w r
  have hwdone : w.2 = (size : ℤ) :=
    writeFromBuffer_full hrelw huw hdw hincw hbw.1 hbw.2 hdirw host hspacew hend
      (by rwa [start_eq (hstart.imp_right And.left)]) hagreew
  have hrdone : r.2 = (size : ℤ) :=
    readToBuffer_full hrelr hur hdr hincr hbr.1 hbr.2 hdirr w.1.memory hspacer hend
      (by rwa [start_eq (hstart.imp_right And.right)]) hagreer
  have hsize : size ≤ 2^64 := by omega
  have hwrite := bufferLoop_whole (moves_charSgdma hincw hbw.2 true host) hspacew
    (hstart.imp_right And.left) hwdone
  have hread := bufferLoop_whole (moves_charSgdma hincr hbr.2 false w.1.memory) hspacer
    (hstart.imp_right And.right) hrdone
  exact ⟨hwdone,hrdone,(copied_fromDevice hdirr hnodup hread).2.1.trans
    (copied_toDevice hdirw hsize hwrite).2.1⟩

/-- Two thousand bytes, at the address forty. -/
theorem write_read_complete_pages :
    let cw : Channel := ⟨0x1000,2,.toDevice,false,by decide,by decide⟩
    let cr : Channel := ⟨0x2000,4,.fromDevice,false,by decide,by decide⟩
    let ew : Engine cw := ⟨fun _ => ⟨0,0,0,0,0,0,0,0⟩,⟨1,by decide⟩,0⟩
    let er : Engine cr := ⟨fun _ => ⟨0,0,0,0,0,0,0,0⟩,⟨3,by decide⟩,0⟩
    let host : Memory := fun a => a.setWidth 8
    let w := writeFromBuffer 0xfffffff ⟨1,1⟩ .linear .direct (Hardware.follow cw) false host 2000
      0x1ffe 40 ⟨ew,fun _ => 0,0⟩
    let r := readToBuffer 4096 ⟨1,1⟩ .linear .direct (Hardware.follow cr) false w.1.memory 2000
      0x5ffe 40 ⟨er,host,0⟩
    r.2 = (2000 : ℕ) ∧ (userAddresses .linear 0x5ffe 2000).map r.1.memory =
      (userAddresses .linear 0x1ffe 2000).map host :=
  (write_read_complete _ _ _ _ _ _ _ _ _ _ _ _ _ 2000 _ _ _ _ _ _ _ (follow_reliable _)
    (follow_reliable _) linear_present linear_present direct_works direct_works rfl rfl rfl
    rfl (by decide) (by decide) (by decide) (by decide) (by decide) (agree_one _ _)
    (agree_one _ _) (Or.inl (by decide))
    (by rw [linear_addresses]; exact nodup_span _ (by decide))).2

/-- After a complete call the file stands at the offset of the last chunk. -/
theorem bufferLoop_pos (hcall : Moves call up source) {size count : ℕ} {buf offset : BitVec 64}
    {f : File c} (hlt : count < size) (hspace : buf.toNat + (size-count) + pageSize ≤ 2^64)
    (hstart : offset ≠ 0 ∨ f.pos = 0)
    (hdone : (bufferLoop call size count buf offset f).2 = (size : ℤ)) :
    (bufferLoop call size count buf offset f).1.pos =
      offset + BitVec.ofNat 64 ((size-count-1)/rwMaxSize*rwMaxSize) := by
  induction hμ : size - count using Nat.strong_induction_on
    generalizing count buf offset f with
  | _ μ ih =>
      subst hμ
      have hbounds := chunk_bounds hlt
      have hneg : -eio < 0 := by decide
      have hround := bufferLoop_round hcall buf offset f hlt hspace
      generalize bufferLoop call size count buf offset f = result at hround hdone ⊢
      cases hround with
      | noSeek hresult =>
          rw [hresult] at hdone
          simp only at hdone
          omega
      | made g n hmsb hpos _ hnext =>
          rw [start_eq hstart] at hpos
          rcases hnext with rfl | ⟨hshort,rfl⟩ | ⟨rfl,rfl⟩
          · simp only at hdone
            omega
          · simp only at hdone
            omega
          · by_cases hlast : count + chunk size count < size
            · have hchunk : chunk size count = rwMaxSize := by
                unfold chunk at hlast ⊢
                omega
              have hmax : 0 < rwMaxSize := by decide
              have hbuf := toNat_add_chunk hbounds.2.1 hspace
              have h := ih (size - (count + chunk size count)) (by omega) hlast
                (by rw [hbuf]; omega) (Or.inl (offset_ne_zero hmsb hbounds.1 hbounds.2.2))
                hdone rfl
              have hdiv : (size-count-1)/rwMaxSize*rwMaxSize =
                  rwMaxSize + (size-(count+rwMaxSize)-1)/rwMaxSize*rwMaxSize := by
                rw [show size-count-1 = size-(count+rwMaxSize)-1+rwMaxSize by omega,
                  Nat.add_div_right _ hmax,Nat.succ_mul,Nat.add_comm]
              rw [h,hchunk,hdiv,BitVec.ofNat_add,BitVec.add_assoc]
            · have hzero : (size-count-1)/rwMaxSize = 0 :=
                Nat.div_eq_of_lt (by unfold chunk at hlast; omega)
              rw [bufferLoop,if_neg hlast,hpos,hzero,Nat.zero_mul]
              exact (BitVec.add_zero _).symm

theorem start_zero (pos : BitVec 64) : start 0 pos = pos := if_pos rfl

/-- The first chunk of a repeated call at address zero is taken from where the file
stands, the other chunks from their own offsets. -/
theorem bufferLoop_again (hcall : Moves call up source) {size : ℕ} {buf : BitVec 64}
    {f : File c} (hlt : rwMaxSize < size) (hspace : buf.toNat + size + pageSize ≤ 2^64)
    (hdone : (bufferLoop call size 0 buf 0 f).2 = (size : ℤ)) :
    ∃ mid n,
      CopiedUpTo (pairs c f.pos (userAddresses up buf.toNat rwMaxSize)) source f.memory mid
        rwMaxSize ∧
      CopiedUpTo (pairs c (BitVec.ofNat 64 rwMaxSize)
          (userAddresses up (buf.toNat+rwMaxSize) (size-rwMaxSize))) source mid
        (bufferLoop call size 0 buf 0 f).1.memory n := by
  have hmax : 0 < rwMaxSize := by decide
  have hchunk : chunk size 0 = rwMaxSize := by
    unfold chunk
    omega
  have hneg : -eio < 0 := by decide
  have hpos : 0 < size := by omega
  have hround := bufferLoop_round hcall buf 0 f hpos hspace
  generalize bufferLoop call size 0 buf 0 f = result at hround hdone ⊢
  cases hround with
  | noSeek hresult =>
      rw [hresult] at hdone
      simp only at hdone
      omega
  | made g n hmsb hpos hcopied hnext =>
      rw [start_zero,hchunk] at hcopied
      rw [hchunk] at hnext
      rcases hnext with rfl | ⟨hshort,rfl⟩ | ⟨rfl,rfl⟩
      · simp only at hdone
        omega
      · simp only at hdone
        omega
      · have hbuf := toNat_add_chunk (show rwMaxSize ≤ size by omega) hspace
        have hoffset : (0 : BitVec 64) + BitVec.ofNat 64 rwMaxSize =
            BitVec.ofNat 64 rwMaxSize := BitVec.zero_add _
        rw [Nat.zero_add,hoffset]
        rcases bufferLoop_copied hcall size rwMaxSize (buf + BitVec.ofNat 64 rwMaxSize)
          (BitVec.ofNat 64 rwMaxSize) g (by omega) (by rw [hbuf]; omega)
          (Or.inl (by decide)) with ⟨k,hrest,_⟩
        rw [hbuf] at hrest
        exact ⟨g.memory,k,hcopied,hrest⟩

/-- Reading more than `RW_MAX_SIZE` bytes from address zero a second time over the same
file fills the first chunk of the buffer from the last chunk's address on. -/
theorem second_read_displaced (descBlenMax : ℕ) [NeZero descBlenMax] (al : AlignRegs)
    (up : UserPages) (dm : DmaMap) (hw : Hardware c) (card card' : Memory) (size : ℕ)
    (buf : BitVec 64) (f : File c) (hdir : c.dir = .fromDevice) (hinc : c.nonIncrAddr = false)
    (hmax : descBlenMax < 2^28) (hlt : rwMaxSize < size)
    (hspace : buf.toNat + size + pageSize ≤ 2^64) (hpos : f.pos = 0)
    (hnodup : (userAddresses up buf.toNat size).Nodup) :
    let first := readToBuffer descBlenMax al up dm hw false card size buf 0 f
    let second := readToBuffer descBlenMax al up dm hw false card' size buf 0 first.1
    let last := (size-1)/rwMaxSize*rwMaxSize
    first.2 = (size : ℤ) → second.2 = (size : ℤ) → rwMaxSize ≤ last ∧
      (userAddresses up buf.toNat rwMaxSize).map second.1.memory =
        (span (BitVec.ofNat 64 last) rwMaxSize).map card' := by
  intro first second last hfirst hsecond
  have hrw : 0 < rwMaxSize := by decide
  have hstand : first.1.pos = BitVec.ofNat 64 last :=
    (bufferLoop_pos (moves_charSgdma hinc hmax false card) (by omega) hspace (Or.inr hpos)
      hfirst).trans (BitVec.zero_add _)
  rcases bufferLoop_again (moves_charSgdma hinc hmax false card') hlt hspace hsecond with
    ⟨mid,n,hchunk,hrest⟩
  rw [hstand] at hchunk
  have hsplit := userAddresses_add up buf.toNat rwMaxSize (size-rwMaxSize)
  rw [Nat.add_sub_cancel' hlt.le] at hsplit
  rw [hsplit,List.nodup_append] at hnodup
  have hplaced := copied_fromDevice hdir hnodup.1 hchunk
  have hkept := copied_fromDevice hdir hnodup.2.1 hrest
  refine ⟨?_,?_⟩
  · have hdiv : 1 ≤ (size-1)/rwMaxSize := (Nat.one_le_div_iff hrw).mpr (by omega)
    exact Nat.le_mul_of_pos_left _ hdiv
  · refine Eq.trans ?_ hplaced.2.1
    exact List.map_congr_left fun a ha =>
      hkept.2.2 a fun hb => hnodup.2.2 a ha a hb rfl

/-- One byte more than a call moves. -/
theorem second_read_displaced_one :
    let c : Channel := ⟨0x2000,4,.fromDevice,false,by decide,by decide⟩
    let e : Engine c := ⟨fun _ => ⟨0,0,0,0,0,0,0,0⟩,⟨3,by decide⟩,0⟩
    let card : Memory := fun a => a.setWidth 8
    let first := readToBuffer 0xfffffff ⟨1,1⟩ .linear .direct (Hardware.follow c) false card
      0x7ffff001 0x1000 0 ⟨e,fun _ => 0,0⟩
    let second := readToBuffer 0xfffffff ⟨1,1⟩ .linear .direct (Hardware.follow c) false card
      0x7ffff001 0x1000 0 first.1
    first.2 = (0x7ffff001 : ℕ) ∧ second.2 = (0x7ffff001 : ℕ) ∧
      (userAddresses .linear 0x1000 rwMaxSize).map second.1.memory =
        (span (BitVec.ofNat 64 rwMaxSize) rwMaxSize).map card := by
  intro c e card
  -- comparing a name with what it stands for would run the loop
  dsimp only
  have hfull (f : File c) : (readToBuffer 0xfffffff ⟨1,1⟩ .linear .direct (Hardware.follow c)
      false card 0x7ffff001 0x1000 0 f).2 = (0x7ffff001 : ℕ) :=
    readToBuffer_full (follow_reliable c) linear_present direct_works rfl (by decide) (by decide)
      rfl card (by decide) (by decide) (agree_one _ _) (agree_one _ _)
  have hdisplaced := second_read_displaced 0xfffffff ⟨1,1⟩ .linear .direct (Hardware.follow c)
    card card 0x7ffff001 0x1000 ⟨e,fun _ => 0,0⟩ rfl rfl (by decide) (by decide) (by decide) rfl
    (by rw [linear_addresses]; exact nodup_span _ (by decide))
  dsimp only at hdisplaced
  exact ⟨hfull _,hfull _,(hdisplaced (hfull _) (hfull _)).2⟩

end FpgaTest.DmaUtils
