import FpgaTest.ScatterGather

/-!
# Sending a file through the DMA loopback

The transfer loop of `test_file.py`. One round reads at most 64 MiB of the
file, writes it to the transmit buffer, builds one descriptor for each 4 MiB in
both rings, starts the channels and, when both are done, appends the receive
buffer to the output. Buffers and rings share one memory. The devices transfer
all requested bytes at the address sought; the engine and the link are those
of `ScatterGather`, with the steps of a round in any order.

`struct.pack` fails on a number of more than 32 bits, so preparing a round and
writing the registers may in principle have no result.
-/
namespace FpgaTest.FileLoopback
open ByteMemory ScatterGather

def descBase : ℕ := 0x80000000
def txBufBase : ℕ := 0x81000000
def rxBufBase : ℕ := 0x86000000
def fileChunkSize : ℕ := 64*1024*1024
def dmaChunkSize : ℕ := 4*1024*1024
def bdSize : ℕ := 64
def mm2sBdBase : ℕ := descBase
def s2mmBdBase : ℕ := descBase + 0x200000

/-- NUM_BD -/
def numBd (totalSize : ℕ) : ℕ := (totalSize + dmaChunkSize - 1)/dmaChunkSize

def bdAddr (base i : ℕ) : ℕ := base + i*bdSize

def nextBd (base totalSize i : ℕ) : ℕ :=
  if i = numBd totalSize - 1 then 0 else bdAddr base i + bdSize

def bdLength (totalSize i : ℕ) : ℕ := min dmaChunkSize (totalSize - i*dmaChunkSize)

/-- SOF on the first descriptor, EOF on the last. -/
def mm2sControl (totalSize i : ℕ) : ℕ :=
  let control := bdLength totalSize i
  let control := if i = 0 then control ||| 1 <<< 27 else control
  if i = numBd totalSize - 1 then control ||| 1 <<< 26 else control

/-- The descriptor bytes; what is not packed is zero. -/
def buildBd (next buf control : ℕ) : Option (List Byte) :=
  (packInto (List.replicate bdSize 0) 0x00 next).bind fun bd =>
    (packInto bd 0x04 0).bind fun bd =>
      (packInto bd 0x08 buf).bind fun bd =>
        (packInto bd 0x0c 0).bind fun bd => packInto bd 0x18 control

def mm2sBd (totalSize i : ℕ) : Option (List Byte) :=
  buildBd (nextBd mm2sBdBase totalSize i) (txBufBase + i*dmaChunkSize) (mm2sControl totalSize i)

def s2mmBd (totalSize i : ℕ) : Option (List Byte) :=
  buildBd (nextBd s2mmBdBase totalSize i) (rxBufBase + i*dmaChunkSize) (bdLength totalSize i)

/-- `for i in range(n)`: build the descriptor and write it to the ring. -/
def writeBds (base : ℕ) (bd : ℕ → Option (List Byte)) : ℕ → Memory → Option Memory
  | 0, m => some m
  | i+1, m =>
      (writeBds base bd i m).bind fun m' => (bd i).map fun bytes => write m' (bdAddr base i) bytes

/-- Transmit buffer and both rings. -/
def prepare (m : Memory) (txData : List Byte) : Option Memory :=
  let totalSize := txData.length
  (writeBds mm2sBdBase (mm2sBd totalSize) (numBd totalSize) (write m txBufBase txData)).bind
    fun m' => writeBds s2mmBdBase (s2mmBd totalSize) (numBd totalSize) m'

/-- The value a register holds after `reg_write`. -/
def regWrite (value : ℕ) : Option ℕ := (packU32 value).map ofLe

/-- CURDESC and TAILDESC of both channels are written and the channels run. -/
def start (m : Memory) (totalSize : ℕ) : Option Engine :=
  (regWrite s2mmBdBase).bind fun s2mmCur =>
    (regWrite (s2mmBdBase + (numBd totalSize - 1)*bdSize)).bind fun s2mmTail =>
      (regWrite mm2sBdBase).bind fun mm2sCur =>
        (regWrite (mm2sBdBase + (numBd totalSize - 1)*bdSize)).map fun mm2sTail =>
          ⟨m,some mm2sCur,mm2sTail,some s2mmCur,s2mmTail,[]⟩

/-- The engine at the start of a round. -/
def startRound (m : Memory) (txData : List Byte) : Option Engine :=
  (prepare m txData).bind fun m' => start m' txData.length

/-- The loop from a file position on, with the engine taking its steps in any
order: what is left of the file, and what is appended to the output. -/
inductive Transfers : Memory → List Byte → List Byte → Prop
  | eof {m : Memory} : Transfers m [] []
  | chunk {m : Memory} {file out : List Byte} {e e' : Engine} {actions : List Action} :
      file ≠ [] → startRound m (file.take fileChunkSize) = some e →
      run e actions = some e' → e'.Done →
      Transfers e'.memory (file.drop fileChunkSize) out →
      Transfers m file (read e'.memory rxBufBase (file.take fileChunkSize).length ++ out)

/-- Where a round of the given size puts descriptors and buffers. -/
def layout (totalSize : ℕ) : Layout where
  count := numBd totalSize
  desc
    | .source => bdAddr mm2sBdBase
    | .target => bdAddr s2mmBdBase
  buf
    | .source => fun i => txBufBase + i*dmaChunkSize
    | .target => fun i => rxBufBase + i*dmaChunkSize
  len := bdLength totalSize

theorem numBd_le {totalSize : ℕ} (h : totalSize ≤ fileChunkSize) : numBd totalSize ≤ 16 := by
  simp only [numBd,fileChunkSize,dmaChunkSize] at *
  omega

theorem lt_of_lt_numBd {totalSize i : ℕ} (h : i < numBd totalSize) :
    i*dmaChunkSize < totalSize := by
  simp only [numBd,dmaChunkSize] at *
  omega

theorem bdLength_pos {totalSize i : ℕ} (h : i < numBd totalSize) : 0 < bdLength totalSize i := by
  have := lt_of_lt_numBd h
  simp only [bdLength,dmaChunkSize] at *
  omega

theorem bdLength_le (totalSize i : ℕ) : bdLength totalSize i ≤ dmaChunkSize := Nat.min_le_left _ _

theorem memory_map : s2mmBdBase = mm2sBdBase + 0x200000 ∧ txBufBase = mm2sBdBase + 0x1000000 ∧
    rxBufBase = mm2sBdBase + 0x6000000 := ⟨rfl,rfl,rfl⟩

/-- Rings and buffers of a round are clear of each other. -/
theorem separated_layout {totalSize : ℕ} (h : totalSize ≤ fileChunkSize) :
    (layout totalSize).Separated := by
  have hn := numBd_le h
  have hlen := bdLength_le totalSize
  rcases memory_map with ⟨hring,htx,hrx⟩
  constructor
  · intro i hi
    exact bdLength_pos hi
  · intro s i hi he
    cases s <;> simp only [layout,bdAddr,bdSize] at he ⊢ <;> omega
  · intro s i hi s' j hj
    cases s <;> cases s' <;> simp only [layout,bdAddr,bdSize,Apart] at hi hj ⊢ <;> omega
  · intro s i hi s' j hj
    have hle := hlen j
    cases s <;> cases s' <;>
      simp only [layout,bdAddr,bdSize,dmaChunkSize,Apart] at hle hi hj ⊢ <;> omega
  · intro i hi s j hj
    cases s <;> simp only [layout,bdAddr,bdSize,Apart] at hi hj ⊢ <;> omega
  · intro i hi j hj
    have hle := hlen j
    simp only [layout,dmaChunkSize,Apart] at hle hi hj ⊢
    omega
  · intro i hi j hj hne
    have hi' := hlen i
    have hj' := hlen j
    simp only [layout,dmaChunkSize,Apart] at hi' hj' hi hj ⊢
    omega

/-- The bytes of a descriptor, word by word. -/
def bdBytes (next buf control : ℕ) : List Byte :=
  toLe 4 next ++ toLe 4 0 ++ toLe 4 buf ++ toLe 4 0 ++ List.replicate 8 0 ++ toLe 4 control ++
    List.replicate 36 0

theorem buildBd_eq {next buf control : ℕ} (hn : next < 2^32) (hb : buf < 2^32)
    (hc : control < 2^32) : buildBd next buf control = some (bdBytes next buf control) := by
  have hzeros : ∀ k, List.replicate (4+k) (0 : Byte) = List.replicate 4 0 ++ List.replicate k 0 :=
    fun k => (List.replicate_append_replicate).symm
  have h00 : packInto (List.replicate bdSize 0) 0x00 next =
      some (toLe 4 next ++ List.replicate 60 0) := by
    rw [show bdSize = 4+60 from rfl,hzeros]
    exact packInto_append [] (List.replicate 4 0) (List.replicate 60 0) rfl rfl hn
  have h04 : packInto (toLe 4 next ++ List.replicate 60 0) 0x04 0 =
      some (toLe 4 next ++ toLe 4 0 ++ List.replicate 56 0) := by
    rw [hzeros 56,← List.append_assoc]
    exact packInto_append _ _ _ (length_toLe 4 next) rfl (by decide)
  have h08 : packInto (toLe 4 next ++ toLe 4 0 ++ List.replicate 56 0) 0x08 buf =
      some (toLe 4 next ++ toLe 4 0 ++ toLe 4 buf ++ List.replicate 52 0) := by
    rw [hzeros 52,← List.append_assoc]
    exact packInto_append _ _ _ (by simp) rfl hb
  have h0c : packInto (toLe 4 next ++ toLe 4 0 ++ toLe 4 buf ++ List.replicate 52 0) 0x0c 0 =
      some (toLe 4 next ++ toLe 4 0 ++ toLe 4 buf ++ toLe 4 0 ++ List.replicate 48 0) := by
    rw [hzeros 48,← List.append_assoc]
    exact packInto_append _ _ _ (by simp) rfl (by decide)
  have h18 : packInto (toLe 4 next ++ toLe 4 0 ++ toLe 4 buf ++ toLe 4 0 ++ List.replicate 48 0)
      0x18 control = some (bdBytes next buf control) := by
    rw [show (48 : ℕ) = 8+(4+36) from rfl,← List.replicate_append_replicate,hzeros 36,
      ← List.append_assoc,← List.append_assoc]
    exact packInto_append _ _ _ (by simp) rfl hc
  rw [buildBd,h00,Option.bind_some,h04,Option.bind_some,h08,Option.bind_some,h0c,
    Option.bind_some,h18]

theorem length_bdBytes (next buf control : ℕ) : (bdBytes next buf control).length = bdSize := by
  simp [bdBytes,bdSize]

theorem readU32_of_read {m : Memory} {a k : ℕ} {bytes : List Byte} (hk : k+4 ≤ bdSize)
    (h : read m a bdSize = bytes) : readU32 m (a+k) = ofLe ((bytes.drop k).take 4) := by
  rw [← h,read_drop (by omega),read_take (by omega),readU32]

/-- The words of a descriptor that stands in memory. -/
theorem words_bdBytes {m : Memory} {a next buf control : ℕ} (hn : next < 2^32) (hb : buf < 2^32)
    (hc : control < 2^32) (h : read m a bdSize = bdBytes next buf control) :
    readU32 m a = next ∧ readU32 m (a+0x04) = 0 ∧ readU32 m (a+0x08) = buf ∧
      readU32 m (a+0x0c) = 0 ∧ readU32 m (a+0x18) = control := by
  have h00 : (bdBytes next buf control).take 4 = toLe 4 next := by
    simp only [bdBytes,List.append_assoc]
    rw [List.take_left' (length_toLe 4 next)]
  have h04 : ((bdBytes next buf control).drop 4).take 4 = toLe 4 0 := by
    simp only [bdBytes,List.append_assoc]
    rw [← List.append_assoc]
    exact word_append _ _ _ (by simp) (length_toLe 4 0)
  have h08 : ((bdBytes next buf control).drop 8).take 4 = toLe 4 buf := by
    simp only [bdBytes,List.append_assoc]
    rw [← List.append_assoc,← List.append_assoc]
    exact word_append _ _ _ (by simp) (length_toLe 4 buf)
  have h0c : ((bdBytes next buf control).drop 0x0c).take 4 = toLe 4 0 := by
    simp only [bdBytes,List.append_assoc]
    rw [← List.append_assoc,← List.append_assoc,← List.append_assoc]
    exact word_append _ _ _ (by simp) (length_toLe 4 0)
  have h18 : ((bdBytes next buf control).drop 0x18).take 4 = toLe 4 control :=
    word_append _ _ _ (by simp) (length_toLe 4 control)
  have hfirst := readU32_of_read (k := 0) (by decide) h
  rw [Nat.add_zero,List.drop_zero,h00,ofLe_toLe_four hn] at hfirst
  refine ⟨hfirst,?_,?_,?_,?_⟩
  · rw [readU32_of_read (by decide) h,h04,ofLe_toLe_four (by decide)]
  · rw [readU32_of_read (by decide) h,h08,ofLe_toLe_four hb]
  · rw [readU32_of_read (by decide) h,h0c,ofLe_toLe_four (by decide)]
  · rw [readU32_of_read (by decide) h,h18,ofLe_toLe_four hc]

theorem fetch_bdBytes {m : Memory} {a next buf control : ℕ} (hn : next < 2^32) (hb : buf < 2^32)
    (hc : control < 2^32) (h : read m a bdSize = bdBytes next buf control) :
    fetch m a = ⟨next,buf,control % 2^26⟩ := by
  rcases words_bdBytes hn hb hc h with ⟨h00,-,h08,-,h18⟩
  rw [fetch,h00,h08,h18]

/-- After the loop every descriptor of the ring stands in memory, and nothing
outside the ring has changed. -/
theorem writeBds_spec (base : ℕ) {bd : ℕ → Option (List Byte)} {bytes : ℕ → List Byte} (n : ℕ)
    (hbd : ∀ i < n, bd i = some (bytes i) ∧ (bytes i).length = bdSize) (m : Memory) :
    ∃ m', writeBds base bd n m = some m' ∧
      (∀ i < n, read m' (bdAddr base i) bdSize = bytes i) ∧
      ∀ addr len, Apart base (n*bdSize) addr len → read m' addr len = read m addr len := by
  induction n with
  | zero => exact ⟨m,rfl,fun i hi => absurd hi (Nat.not_lt_zero i),fun addr len _ => rfl⟩
  | succ n ih =>
      rcases ih (fun i hi => hbd i (by omega)) with ⟨m',hm',hread,hframe⟩
      rcases hbd n (Nat.lt_succ_self n) with ⟨hn,hlen⟩
      refine ⟨write m' (bdAddr base n) (bytes n),?_,?_,?_⟩
      · rw [writeBds,hm',Option.bind_some,hn,Option.map_some]
      · intro i hi
        by_cases hin : i = n
        · rw [hin,← hlen,read_write_self]
        · rw [read_write_disjoint,hread i (by omega)]
          rw [hlen]
          simp only [bdAddr,bdSize]
          omega
      · intro addr len hapart
        unfold Apart at hapart
        rw [read_write_disjoint,hframe addr len]
        · unfold Apart
          simp only [bdSize] at hapart ⊢
          omega
        · rw [hlen]
          simp only [bdAddr,bdSize] at hapart ⊢
          omega

theorem mm2sBdBase_eq : mm2sBdBase = 0x80000000 := rfl

theorem nextBd_lt {totalSize i base : ℕ} (h : totalSize ≤ fileChunkSize)
    (hbase : base ≤ mm2sBdBase + 0x200000) (hi : i < numBd totalSize) :
    nextBd base totalSize i < 2^32 := by
  have hn := numBd_le h
  have hring := mm2sBdBase_eq
  unfold nextBd
  split_ifs
  · omega
  · simp only [bdAddr,bdSize]
    omega

theorem bufAddr_lt {totalSize i base : ℕ} (h : totalSize ≤ fileChunkSize)
    (hbase : base ≤ mm2sBdBase + 0x6000000) (hi : i < numBd totalSize) :
    base + i*dmaChunkSize < 2^32 := by
  have hn := numBd_le h
  have hring := mm2sBdBase_eq
  simp only [dmaChunkSize]
  omega

theorem bdLength_lt (totalSize i : ℕ) : bdLength totalSize i < 2^26 := by
  have hle := bdLength_le totalSize i
  simp only [dmaChunkSize] at hle
  omega

theorem mm2sControl_lt (totalSize i : ℕ) : mm2sControl totalSize i < 2^32 := by
  have hlen : bdLength totalSize i < 2^32 := (bdLength_lt totalSize i).trans (by decide)
  have hsof : (1 <<< 27 : ℕ) < 2^32 := by decide
  have heof : (1 <<< 26 : ℕ) < 2^32 := by decide
  unfold mm2sControl
  split_ifs
  · exact Nat.or_lt_two_pow (Nat.or_lt_two_pow hlen hsof) heof
  · exact Nat.or_lt_two_pow hlen hsof
  · exact Nat.or_lt_two_pow hlen heof
  · exact hlen

theorem mm2sControl_mod (totalSize i : ℕ) :
    mm2sControl totalSize i % 2^26 = bdLength totalSize i := by
  have hlen := Nat.mod_eq_of_lt (bdLength_lt totalSize i)
  have hsof : (1 <<< 27 : ℕ) % 2^26 = 0 := by decide
  have heof : (1 <<< 26 : ℕ) % 2^26 = 0 := by decide
  unfold mm2sControl
  split_ifs <;> simp only [Nat.or_mod_two_pow,hlen,hsof,heof,Nat.or_zero]

theorem writeRing_spec {totalSize : ℕ} (base bufBase : ℕ) {control : ℕ → ℕ} (m : Memory)
    (h : totalSize ≤ fileChunkSize) (hbase : base ≤ mm2sBdBase + 0x200000)
    (hbuf : bufBase ≤ mm2sBdBase + 0x6000000) (hcontrol : ∀ i, control i < 2^32) :
    ∃ m', writeBds base (fun i => buildBd (nextBd base totalSize i) (bufBase + i*dmaChunkSize)
        (control i)) (numBd totalSize) m = some m' ∧
      (∀ i < numBd totalSize, read m' (bdAddr base i) bdSize =
        bdBytes (nextBd base totalSize i) (bufBase + i*dmaChunkSize) (control i)) ∧
      ∀ addr len, Apart base (numBd totalSize*bdSize) addr len →
        read m' addr len = read m addr len := by
  apply writeBds_spec
  intro i hi
  exact ⟨buildBd_eq (nextBd_lt h hbase hi) (bufAddr_lt h hbuf hi) (hcontrol i),
    length_bdBytes _ _ _⟩

theorem linked_ring {totalSize base bufBase : ℕ} {control : ℕ → ℕ} {s : Side} {m : Memory}
    (h : totalSize ≤ fileChunkSize) (hbase : base ≤ mm2sBdBase + 0x200000)
    (hbuf : bufBase ≤ mm2sBdBase + 0x6000000) (hcontrol : ∀ i, control i < 2^32)
    (hlength : ∀ i, control i % 2^26 = bdLength totalSize i)
    (hdesc : (layout totalSize).desc s = bdAddr base)
    (hbufs : (layout totalSize).buf s = fun i => bufBase + i*dmaChunkSize)
    (hread : ∀ i < numBd totalSize, read m (bdAddr base i) bdSize =
      bdBytes (nextBd base totalSize i) (bufBase + i*dmaChunkSize) (control i)) :
    (layout totalSize).Linked s m := by
  intro i hi
  have hfetch := fetch_bdBytes (nextBd_lt h hbase hi) (bufAddr_lt h hbuf hi) (hcontrol i)
    (hread i hi)
  rw [hdesc,hbufs,hfetch,hlength i]
  refine ⟨rfl,rfl,?_⟩
  intro hnext
  have hne : i ≠ numBd totalSize - 1 := by
    intro he
    simp only [layout] at hnext
    omega
  rw [nextBd,if_neg hne]
  simp only [bdAddr,bdSize]
  omega

theorem regWrite_eq {value : ℕ} (h : value < 2^32) : regWrite value = some value := by
  rw [regWrite,packU32,if_pos h,Option.map_some,ofLe_toLe_four h]

/-- The part of the data that the descriptor `i` describes. -/
def chunk (txData : List Byte) (i : ℕ) : List Byte :=
  (txData.drop (i*dmaChunkSize)).take dmaChunkSize

theorem take_bdLength (txData : List Byte) (i : ℕ) :
    (txData.drop (i*dmaChunkSize)).take (bdLength txData.length i) = chunk txData i := by
  rw [chunk,bdLength,← List.length_drop,← List.take_eq_take_min]

/-- The bytes of both rings and of the transmit buffer in a prepared memory. -/
theorem prepare_bytes (m : Memory) {txData : List Byte} (h : txData.length ≤ fileChunkSize) :
    ∃ m', prepare m txData = some m' ∧
      (∀ i < numBd txData.length, read m' (bdAddr mm2sBdBase i) bdSize =
        bdBytes (nextBd mm2sBdBase txData.length i) (txBufBase + i*dmaChunkSize)
          (mm2sControl txData.length i)) ∧
      (∀ i < numBd txData.length, read m' (bdAddr s2mmBdBase i) bdSize =
        bdBytes (nextBd s2mmBdBase txData.length i) (rxBufBase + i*dmaChunkSize)
          (bdLength txData.length i)) ∧
      ∀ i < numBd txData.length,
        read m' (txBufBase + i*dmaChunkSize) (bdLength txData.length i) = chunk txData i := by
  rcases memory_map with ⟨hring,htx,hrx⟩
  have hn := numBd_le h
  have hlen : ∀ i, bdLength txData.length i < 2^32 :=
    fun i => (bdLength_lt txData.length i).trans (by decide)
  rcases writeRing_spec mm2sBdBase txBufBase (write m txBufBase txData) h (by omega) (by omega)
    (mm2sControl_lt txData.length) with ⟨m1,hm1,hread1,hframe1⟩
  rcases writeRing_spec s2mmBdBase rxBufBase m1 h (by omega) (by omega) hlen with
    ⟨m2,hm2,hread2,hframe2⟩
  refine ⟨m2,Option.bind_eq_some_iff.mpr ⟨m1,hm1,hm2⟩,?_,hread2,?_⟩
  · intro i hi
    rw [hframe2,hread1 i hi]
    simp only [Apart,bdAddr,bdSize]
    omega
  · intro i hi
    have hlt := lt_of_lt_numBd hi
    have hclear1 : mm2sBdBase + numBd txData.length*bdSize ≤ txBufBase + i*dmaChunkSize := by
      simp only [bdSize]
      omega
    have hclear2 : s2mmBdBase + numBd txData.length*bdSize ≤ txBufBase + i*dmaChunkSize := by
      simp only [bdSize]
      omega
    have hrest : bdLength txData.length i ≤ txData.length - i*dmaChunkSize := Nat.min_le_right _ _
    rw [hframe2 _ _ (Or.inl hclear2),hframe1 _ _ (Or.inl hclear1),
      read_write_within _ _ _ _ ((Nat.le_sub_iff_add_le' hlt.le).mp hrest),take_bdLength]

theorem prepare_spec (m : Memory) {txData : List Byte} (h : txData.length ≤ fileChunkSize) :
    ∃ m', prepare m txData = some m' ∧ (∀ s, (layout txData.length).Linked s m') ∧
      ∀ i < numBd txData.length,
        read m' (txBufBase + i*dmaChunkSize) (bdLength txData.length i) = chunk txData i := by
  rcases memory_map with ⟨hring,htx,hrx⟩
  rcases prepare_bytes m h with ⟨m',hprep,hmm2s,hs2mm,hbuf⟩
  refine ⟨m',hprep,?_,hbuf⟩
  intro s
  cases s with
  | source =>
      exact linked_ring h (by omega) (by omega) (mm2sControl_lt txData.length)
        (mm2sControl_mod txData.length) rfl rfl hmm2s
  | target =>
      exact linked_ring h (by omega) (by omega)
        (fun i => (bdLength_lt txData.length i).trans (by decide))
        (fun i => Nat.mod_eq_of_lt (bdLength_lt txData.length i)) rfl rfl hs2mm

theorem numBd_pos {totalSize : ℕ} (h : 0 < totalSize) : 0 < numBd totalSize := by
  simp only [numBd,dmaChunkSize]
  omega

theorem start_eq (m : Memory) {totalSize : ℕ} (h : totalSize ≤ fileChunkSize) :
    start m totalSize = some ⟨m,some mm2sBdBase,mm2sBdBase + (numBd totalSize - 1)*bdSize,
      some s2mmBdBase,s2mmBdBase + (numBd totalSize - 1)*bdSize,[]⟩ := by
  have hn := numBd_le h
  have hbase := mm2sBdBase_eq
  rcases memory_map with ⟨hring,-,-⟩
  have h1 : s2mmBdBase < 2^32 := by omega
  have h2 : s2mmBdBase + (numBd totalSize - 1)*bdSize < 2^32 := by
    simp only [bdSize]
    omega
  have h3 : mm2sBdBase < 2^32 := by omega
  have h4 : mm2sBdBase + (numBd totalSize - 1)*bdSize < 2^32 := by
    simp only [bdSize]
    omega
  rw [start,regWrite_eq h1,regWrite_eq h2,regWrite_eq h3,regWrite_eq h4]
  rfl

theorem startRound_progress (m : Memory) {txData : List Byte} (hne : txData ≠ [])
    (h : txData.length ≤ fileChunkSize) :
    ∃ e, startRound m txData = some e ∧ Progress (layout txData.length) (chunk txData) e 0 0 := by
  have hpos := numBd_pos (List.length_pos_iff.mpr hne)
  rcases prepare_spec m h with ⟨m',hprep,hlinked,hsource⟩
  refine ⟨_,by rw [startRound,hprep,Option.bind_some,start_eq m' h],?_⟩
  refine ⟨Nat.zero_le _,le_rfl,hlinked,hsource,?_,rfl,?_,rfl,(segments_self _ 0).symm,?_⟩
  · rw [if_pos (show 0 < (layout txData.length).count from hpos)]
    simp [layout,bdAddr]
  · rw [if_pos (show 0 < (layout txData.length).count from hpos)]
    simp [layout,bdAddr]
  · intro k hk
    exact absurd hk (Nat.not_lt_zero k)

theorem le_numBd_mul (totalSize : ℕ) : totalSize ≤ numBd totalSize*dmaChunkSize := by
  simp only [numBd,dmaChunkSize]
  omega

theorem min_succ_mul {totalSize k : ℕ} (h : k*dmaChunkSize < totalSize) :
    min ((k+1)*dmaChunkSize) totalSize = k*dmaChunkSize + bdLength totalSize k := by
  rw [bdLength,Nat.succ_mul,← Nat.add_min_add_left,Nat.add_sub_of_le h.le]

theorem read_received {m : Memory} {txData : List Byte}
    (h : ∀ k < numBd txData.length, read m (rxBufBase + k*dmaChunkSize)
      (bdLength txData.length k) = chunk txData k) (k : ℕ) (hk : k ≤ numBd txData.length) :
    read m rxBufBase (min (k*dmaChunkSize) txData.length) = txData.take (k*dmaChunkSize) := by
  induction k with
  | zero => simp [ByteMemory.read]
  | succ k ih =>
      have hlt := lt_of_lt_numBd (Nat.lt_of_succ_le hk)
      have hprev := ih (by omega)
      rw [Nat.min_eq_left hlt.le] at hprev
      rw [min_succ_mul hlt,read_add,hprev,h k (by omega),chunk,Nat.succ_mul,List.take_add]

theorem received_eq {e : Engine} {txData : List Byte} {i j : ℕ}
    (h : Progress (layout txData.length) (chunk txData) e i j) (hdone : e.Done) :
    read e.memory rxBufBase txData.length = txData := by
  have hj : j = numBd txData.length := h.done_iff.mp hdone
  have hall := le_numBd_mul txData.length
  have hread := read_received (m := e.memory) (fun k hk => h.target k (hj ▸ hk))
    (numBd txData.length) le_rfl
  rw [Nat.min_eq_right hall,List.take_of_length_le hall] at hread
  exact hread

theorem fileChunk_spec {file : List Byte} (h : file ≠ []) :
    file.take fileChunkSize ≠ [] ∧ (file.take fileChunkSize).length ≤ fileChunkSize := by
  constructor
  · intro he
    rcases List.take_eq_nil_iff.mp he with hzero | hnil
    · exact absurd hzero (by decide)
    · exact h hnil
  · rw [List.length_take]
    exact Nat.min_le_left _ _

theorem transfers_eq {m : Memory} {file out : List Byte} (h : Transfers m file out) :
    out = file := by
  induction h with
  | eof => rfl
  | @chunk m file out e e' actions hne hstart hrun hdone _ ih =>
      rcases fileChunk_spec hne with ⟨hne',hlen⟩
      rcases startRound_progress m hne' hlen with ⟨e'',hstart',hp⟩
      rw [hstart] at hstart'
      cases hstart'
      rcases run_progress (separated_layout hlen) hp hrun with ⟨i,j,hp',-⟩
      rw [received_eq hp' hdone,ih,List.take_append_drop]

theorem exists_transfers (m : Memory) (file : List Byte) : ∃ out, Transfers m file out := by
  induction hn : file.length using Nat.strong_induction_on generalizing m file with
  | _ n ih =>
      by_cases hne : file = []
      · rw [hne]
        exact ⟨[],.eof⟩
      · rcases fileChunk_spec hne with ⟨hne',hlen⟩
        rcases startRound_progress m hne' hlen with ⟨e,hstart,hp⟩
        rcases exists_run_done (separated_layout hlen) hp with ⟨actions,e',hrun,hdone⟩
        have hpos := List.length_pos_iff.mpr hne
        have hchunk : 0 < fileChunkSize := by decide
        rcases ih (file.drop fileChunkSize).length (by rw [List.length_drop]; omega) e'.memory
          (file.drop fileChunkSize) rfl with ⟨out,hout⟩
        exact ⟨_,.chunk hne hstart hrun hdone hout⟩

/-- Every file comes back unchanged, whatever the memory held before and in
whatever order the channels work; and no round can hang: it starts, its steps
are bounded, and before both channels are done one of them can go on. -/
theorem file_loopback_exact (m : Memory) (file : List Byte) :
    (∃ out, Transfers m file out) ∧ (∀ out, Transfers m file out → out = file) ∧
      ∀ (m' : Memory) (txData : List Byte), txData ≠ [] → txData.length ≤ fileChunkSize →
        ∃ e, startRound m' txData = some e ∧
          ∀ actions e', run e actions = some e' → actions.length ≤ 2*numBd txData.length ∧
            (e'.Done ∨ ∃ a e'', step e' a = some e'') := by
  refine ⟨exists_transfers m file,fun out h => transfers_eq h,?_⟩
  intro m' txData hne hlen
  have hl := separated_layout hlen
  rcases startRound_progress m' hne hlen with ⟨e,hstart,hp⟩
  refine ⟨e,hstart,?_⟩
  intro actions e' hrun
  rcases run_progress hl hp hrun with ⟨i,j,hp',hsum⟩
  have hsent : i ≤ numBd txData.length := hp'.sent_le
  have hreceived := hp'.received_le
  refine ⟨by omega,?_⟩
  by_cases hdone : e'.Done
  · exact Or.inl hdone
  · right
    rcases hp'.enabled hl hdone 0 with ⟨e'',hstep,-⟩ | ⟨e'',hstep,-⟩
    · exact ⟨_,e'',hstep⟩
    · exact ⟨_,e'',hstep⟩

end FpgaTest.FileLoopback
