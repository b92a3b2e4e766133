import FpgaTest.ByteMemory
import FpgaTest.Loop

/-!
# Copying a file through the FPGA memory

The two loops of `file_copy_ddr.py`. Each goes through the file in chunks of
4096 bytes at most, seeks to the chunk and calls the device once. The device may
transfer any part of a request. The read loop goes on behind what it got; the
write loop goes on behind what it asked for, so what a short write leaves out is
never written.

Console output and the hashes are left out.
-/
namespace FpgaTest.FileCopy
open ByteMemory StateTransition

def fpgaBaseAddress : ℕ := 0

/-- CHUNK_SIZE -/
def chunkSize : ℕ := 4096

/-- How much each call transfers, of the amount requested. -/
structure Device where
  transferred : ℕ → ℕ → ℕ
  pos : ∀ call amount, 0 < amount → 1 ≤ transferred call amount
  le : ∀ call amount, transferred call amount ≤ amount

def currentChunkSize (fileSize offset : ℕ) : ℕ := min chunkSize (fileSize - offset)

structure WriteState where
  memory : Memory
  offset : ℕ
  calls : ℕ

/-- One turn of the write loop; the result of `os.write` is not looked at. -/
def writeTurn (h2c : Device) (fileData : List Byte) (s : WriteState) : Option WriteState :=
  if s.offset < fileData.length then
    let size := currentChunkSize fileData.length s.offset
    let chunk := (fileData.drop s.offset).take size
    some
      { memory := write s.memory (fpgaBaseAddress + s.offset)
          (chunk.take (h2c.transferred s.calls chunk.length))
        offset := s.offset + size
        calls := s.calls + 1 }
  else none

structure ReadState where
  recvBuffer : List Byte
  offset : ℕ
  calls : ℕ

/-- One turn of the read loop, which is also left on an empty chunk. -/
def readTurn (c2h : Device) (memory : Memory) (fileSize : ℕ) (s : ReadState) :
    Option ReadState :=
  if s.offset < fileSize then
    let size := currentChunkSize fileSize s.offset
    let chunk := read memory (fpgaBaseAddress + s.offset) (c2h.transferred s.calls size)
    if chunk = [] then none
    else some ⟨s.recvBuffer ++ chunk,s.offset + chunk.length,s.calls + 1⟩
  else none

/-- Both loops are left, with the file in memory after the first and in the
buffer after the second. -/
def Delivered (h2c c2h : Device) (memory : Memory) (fileData : List Byte) : Prop :=
  ∃ w ∈ eval (writeTurn h2c fileData) ⟨memory,0,0⟩,
    ∃ r ∈ eval (readTurn c2h w.memory fileData.length) ⟨[],0,0⟩,
      read w.memory fpgaBaseAddress fileData.length = fileData ∧ r.recvBuffer = fileData

/-- The byte at this position is behind the end of what its call wrote. -/
def LeftOut (h2c : Device) (fileSize i : ℕ) : Prop :=
  h2c.transferred (i/chunkSize) (currentChunkSize fileSize (i/chunkSize*chunkSize)) ≤ i % chunkSize

instance decidableLeftOut (h2c : Device) (fileSize i : ℕ) : Decidable (LeftOut h2c fileSize i) :=
  inferInstanceAs (Decidable (_ ≤ _))

section WriteLoop
variable (h2c : Device) (memory : Memory) (fileData : List Byte)

/-- Before each turn of the write loop: the chunks so far, less what was left out. -/
structure Written (s : WriteState) : Prop where
  offset_eq : s.offset = min (s.calls*chunkSize) fileData.length
  memory_eq : ∀ i, s.memory i =
    if i < s.offset ∧ ¬ LeftOut h2c fileData.length i then fileData.getD i 0 else memory i

variable {h2c memory fileData}

theorem length_chunk (fileData : List Byte) (offset : ℕ) :
    ((fileData.drop offset).take (currentChunkSize fileData.length offset)).length =
      currentChunkSize fileData.length offset := by
  rw [List.length_take,List.length_drop,currentChunkSize]
  omega

theorem currentChunkSize_pos {fileSize offset : ℕ} (h : offset < fileSize) :
    0 < currentChunkSize fileSize offset := by
  simp only [currentChunkSize,chunkSize]
  omega

theorem Written.offset_lt {s : WriteState} (h : Written h2c memory fileData s)
    (hlt : s.offset < fileData.length) : s.offset = s.calls*chunkSize := by
  have hoff := h.offset_eq
  omega

theorem leftOut_chunk {k i : ℕ} (fileSize : ℕ) (hle : k*chunkSize ≤ i)
    (hlt : i < k*chunkSize + chunkSize) :
    LeftOut h2c fileSize i ↔
      h2c.transferred k (currentChunkSize fileSize (k*chunkSize)) ≤ i - k*chunkSize := by
  have hdiv : i/chunkSize = k := by
    simp only [chunkSize] at *
    omega
  have hmod : i % chunkSize = i - k*chunkSize := by
    simp only [chunkSize] at *
    omega
  rw [LeftOut,hdiv,hmod]

theorem getD_chunk (offset n m : ℕ) {i : ℕ} (hle : offset ≤ i) (hn : i < offset + n)
    (hm : i < offset + m) :
    ((((fileData.drop offset).take n).take m).getD (i - offset) 0) = fileData.getD i 0 := by
  rw [List.getD_eq_getElem?_getD,List.getD_eq_getElem?_getD,List.getElem?_take_of_lt (by omega),
    List.getElem?_take_of_lt (by omega),List.getElem?_drop,Nat.add_sub_cancel' hle]

/-- The bytes after a turn: those of the chunk up to what was transferred. -/
theorem Written.memory_turn {s : WriteState} (h : Written h2c memory fileData s)
    (hlt : s.offset < fileData.length) (i : ℕ) :
    write s.memory (fpgaBaseAddress + s.offset)
        (((fileData.drop s.offset).take (currentChunkSize fileData.length s.offset)).take
          (h2c.transferred s.calls (currentChunkSize fileData.length s.offset))) i =
      if i < s.offset + currentChunkSize fileData.length s.offset ∧
          ¬ LeftOut h2c fileData.length i then fileData.getD i 0 else memory i := by
  have hoff := h.offset_lt hlt
  have hle := h2c.le s.calls (currentChunkSize fileData.length s.offset)
  have hsize : currentChunkSize fileData.length s.offset ≤ chunkSize := Nat.min_le_left _ _
  have hleft : s.offset ≤ i → i < s.offset + chunkSize → (LeftOut h2c fileData.length i ↔
      h2c.transferred s.calls (currentChunkSize fileData.length s.offset) ≤ i - s.offset) := by
    rw [hoff]
    exact leftOut_chunk fileData.length
  have hlen := length_chunk fileData s.offset
  rw [fpgaBaseAddress,Nat.zero_add]
  by_cases hin : s.offset ≤ i ∧
      i < s.offset + h2c.transferred s.calls (currentChunkSize fileData.length s.offset)
  · have hnot : ¬ LeftOut h2c fileData.length i := by
      rw [hleft hin.1 (by omega)]
      omega
    rw [write_inside hin.1 (by rw [List.length_take,hlen]; omega),
      getD_chunk _ _ _ hin.1 (by omega) hin.2,if_pos ⟨by omega,hnot⟩]
  · rw [write_outside (by rw [List.length_take,hlen]; omega),h.memory_eq i]
    by_cases hbefore : i < s.offset
    · simp only [hbefore,show i < s.offset + currentChunkSize fileData.length s.offset by omega]
    · rw [if_neg (fun hc => hbefore hc.1),if_neg]
      intro hc
      apply hc.2
      rw [hleft (by omega) (by omega)]
      omega

theorem writeTurn_written {s t : WriteState} (h : Written h2c memory fileData s)
    (hturn : writeTurn h2c fileData s = some t) :
    Written h2c memory fileData t ∧ fileData.length - t.offset < fileData.length - s.offset := by
  unfold writeTurn at hturn
  split_ifs at hturn with hlt
  · have hoff := h.offset_lt hlt
    have hpos := currentChunkSize_pos hlt
    simp only [length_chunk,Option.some_inj] at hturn
    subst hturn
    refine ⟨⟨?_,h.memory_turn hlt⟩,?_⟩
    · simp only [currentChunkSize,chunkSize] at hoff ⊢
      omega
    · dsimp only
      omega

/-- The write loop is left, with everything in memory but what was left out. -/
theorem writeLoop_spec (h2c : Device) (memory : Memory) (fileData : List Byte) :
    ∃ w ∈ eval (writeTurn h2c fileData) ⟨memory,0,0⟩, ∀ i, w.memory i =
      if i < fileData.length ∧ ¬ LeftOut h2c fileData.length i then fileData.getD i 0
      else memory i := by
  have hstart : Written h2c memory fileData ⟨memory,0,0⟩ :=
    ⟨by simp,fun i => by simp⟩
  have hstep : ∀ s t, Written h2c memory fileData s → writeTurn h2c fileData s = some t →
      Written h2c memory fileData t ∧ fileData.length - t.offset < fileData.length - s.offset :=
    fun s t h hturn => writeTurn_written h hturn
  rcases Loop.exists_mem_eval (fun s => fileData.length - s.offset) hstep hstart with ⟨w,hw⟩
  rcases Loop.invariant_of_mem_eval (fun s t h hturn => (hstep s t h hturn).1) hw hstart with
    ⟨hwritten,hleave⟩
  have hend : w.offset = fileData.length := by
    have hoff := hwritten.offset_eq
    unfold writeTurn at hleave
    split_ifs at hleave
    omega
  refine ⟨w,hw,?_⟩
  have hmem := hwritten.memory_eq
  rw [hend] at hmem
  exact hmem

end WriteLoop

section ReadLoop
variable {c2h : Device} {memory : Memory} {fileSize : ℕ}

/-- Before each turn of the read loop: what lies before the offset, in order. -/
structure Received (memory : Memory) (fileSize : ℕ) (s : ReadState) : Prop where
  offset_le : s.offset ≤ fileSize
  recvBuffer_eq : s.recvBuffer = read memory fpgaBaseAddress s.offset

theorem readTurn_received {s t : ReadState} (h : Received memory fileSize s)
    (hturn : readTurn c2h memory fileSize s = some t) :
    Received memory fileSize t ∧ fileSize - t.offset < fileSize - s.offset := by
  unfold readTurn at hturn
  split_ifs at hturn with hlt
  · have hle := c2h.le s.calls (currentChunkSize fileSize s.offset)
    have hsize : currentChunkSize fileSize s.offset ≤ fileSize - s.offset := Nat.min_le_right _ _
    have hpos := c2h.pos s.calls _ (currentChunkSize_pos hlt)
    simp only [length_read] at hturn
    split_ifs at hturn with hempty
    cases hturn
    refine ⟨⟨?_,?_⟩,?_⟩
    · dsimp only
      omega
    · rw [h.recvBuffer_eq,← read_add]
    · dsimp only
      omega

theorem readLoop_spec (c2h : Device) (memory : Memory) (fileSize : ℕ) :
    ∃ r ∈ eval (readTurn c2h memory fileSize) ⟨[],0,0⟩,
      r.recvBuffer = read memory fpgaBaseAddress fileSize := by
  have hstart : Received memory fileSize ⟨[],0,0⟩ := ⟨Nat.zero_le _,rfl⟩
  have hstep : ∀ s t, Received memory fileSize s → readTurn c2h memory fileSize s = some t →
      Received memory fileSize t ∧ fileSize - t.offset < fileSize - s.offset :=
    fun s t h hturn => readTurn_received h hturn
  rcases Loop.exists_mem_eval (fun s => fileSize - s.offset) hstep hstart with ⟨r,hr⟩
  rcases Loop.invariant_of_mem_eval (fun s t h hturn => (hstep s t h hturn).1) hr hstart with
    ⟨hreceived,hleave⟩
  have hend : r.offset = fileSize := by
    by_contra hne
    have hlt : r.offset < fileSize := lt_of_le_of_ne hreceived.offset_le hne
    have hpos := c2h.pos r.calls _ (currentChunkSize_pos hlt)
    unfold readTurn at hleave
    rw [if_pos hlt] at hleave
    dsimp only at hleave
    split_ifs at hleave with hempty
    have hlen := congrArg List.length hempty
    rw [length_read,List.length_nil] at hlen
    omega
  exact ⟨r,hr,by rw [hreceived.recvBuffer_eq,hend]⟩

end ReadLoop

theorem delivered_iff_leftOut (h2c c2h : Device) (memory : Memory) (fileData : List Byte) :
    Delivered h2c c2h memory fileData ↔
      ∀ i < fileData.length, LeftOut h2c fileData.length i →
        memory (fpgaBaseAddress + i) = fileData.getD i 0 := by
  rcases writeLoop_spec h2c memory fileData with ⟨w,hw,hmem⟩
  rcases readLoop_spec c2h w.memory fileData.length with ⟨r,hr,hbuffer⟩
  have hiff : Delivered h2c c2h memory fileData ↔
      read w.memory fpgaBaseAddress fileData.length = fileData := by
    constructor
    · rintro ⟨w',hw',r',-,hread,-⟩
      rwa [Part.mem_unique hw hw']
    · intro hread
      exact ⟨w,hw,r,hr,hread,hbuffer.trans hread⟩
  rw [hiff,read_eq_iff]
  apply forall₂_congr
  intro i hi
  rw [fpgaBaseAddress,Nat.zero_add,hmem i]
  by_cases hleft : LeftOut h2c fileData.length i
  · simp [hleft]
  · simp [hleft,hi]

/-- Both loops are left and the file arrives in memory and in the buffer exactly
if every byte that a short `os.write` left out already stood in memory; for
all memories that is the case exactly if no write leaves anything out. -/
theorem file_copy_exact_iff (h2c c2h : Device) (fileData : List Byte) :
    (∀ memory, Delivered h2c c2h memory fileData ↔
      ∀ i < fileData.length, LeftOut h2c fileData.length i →
        memory (fpgaBaseAddress + i) = fileData.getD i 0) ∧
    ((∀ memory, Delivered h2c c2h memory fileData) ↔
      ∀ i < fileData.length, ¬ LeftOut h2c fileData.length i) := by
  have hall := fun memory => delivered_iff_leftOut h2c c2h memory fileData
  refine ⟨hall,?_⟩
  constructor
  · intro h i hi hleft
    have hstood := (hall fun a => fileData.getD a 0 + 1).mp (h _) i hi hleft
    rw [fpgaBaseAddress,Nat.zero_add] at hstood
    bv_omega
  · intro h memory
    rw [hall]
    exact fun i hi hleft => absurd hleft (h i hi)

/-- A device that transfers one byte a call. -/
def byteDevice : Device := ⟨fun _ amount => min 1 amount,fun _ _ h => by omega,fun _ _ => by omega⟩

/-- Of a file of two bytes the second one is never written. -/
theorem short_write_not_delivered : ¬ Delivered byteDevice byteDevice (fun _ => 0) [1,2] := by
  rw [delivered_iff_leftOut]
  decide

end FpgaTest.FileCopy
