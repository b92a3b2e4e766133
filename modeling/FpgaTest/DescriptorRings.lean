import FpgaTest.FileLoopback

/-!
# The two descriptor rings of a round

What stands in memory after `test_file.py` has built the rings of one round,
decoded from the words of the descriptors and not from the values they were
built from. A chain is followed from CURDESC through the next pointers up to
TAILDESC, as the engine follows it.
-/
namespace FpgaTest.DescriptorRings
open ByteMemory ScatterGather FileLoopback

/-- The five words that the script packs. -/
structure Bd where
  nextLow : ℕ
  nextHigh : ℕ
  bufLow : ℕ
  bufHigh : ℕ
  control : ℕ
  deriving DecidableEq, Repr

def decodeBd (m : Memory) (addr : ℕ) : Bd :=
  ⟨readU32 m addr,readU32 m (addr+0x04),readU32 m (addr+0x08),readU32 m (addr+0x0c),
    readU32 m (addr+0x18)⟩

namespace Bd

def next (d : Bd) : ℕ := d.nextLow + 2^32*d.nextHigh

def buf (d : Bd) : ℕ := d.bufLow + 2^32*d.bufHigh

def length (d : Bd) : ℕ := d.control % 2^26

def sof (d : Bd) : Bool := d.control.testBit 27

def eof (d : Bd) : Bool := d.control.testBit 26

end Bd

/-- The descriptors met from an address on, up to the tail. -/
inductive Follows (m : Memory) (tail : ℕ) : ℕ → List ℕ → Prop
  | last : Follows m tail tail [tail]
  | next {addr : ℕ} {visited : List ℕ} : addr ≠ tail →
      Follows m tail (decodeBd m addr).next visited → Follows m tail addr (addr::visited)

/-- A chain met in address order, with buffers of the given lengths one behind
the other. -/
structure Chain (m : Memory) (cur tail bufBase : ℕ) (visited lengths : List ℕ) : Prop where
  follows : Follows m tail cur visited
  ascending : visited.Pairwise (· < ·)
  lengths_eq : visited.map (fun addr => (decodeBd m addr).length) = lengths
  contiguous : ∀ (i : ℕ) (h : i < visited.length),
    (decodeBd m visited[i]).buf = bufBase + (lengths.take i).sum

/-- The control word is the length and the two flags, with nothing in common. -/
def Bd.Packed (d : Bd) : Prop :=
  d.control = d.length + (if d.sof then 2^27 else 0) + if d.eof then 2^26 else 0

theorem or_flags {len : ℕ} (h : len < 2^26) (flags : ℕ) :
    len ||| flags <<< 26 = len + 2^26*flags := by
  rw [Nat.or_comm,← Nat.shiftLeft_add_eq_or_of_lt h,Nat.shiftLeft_eq]
  omega

theorem mm2sControl_eq (totalSize i : ℕ) : mm2sControl totalSize i = bdLength totalSize i +
    2^26*((if i = 0 then 2 else 0) + if i = numBd totalSize - 1 then 1 else 0) := by
  have hlen := bdLength_lt totalSize i
  have hsof : 1 <<< 27 = 2 <<< 26 := by decide
  have hboth : 2 <<< 26 ||| 1 <<< 26 = 3 <<< 26 := by decide
  simp only [mm2sControl]
  split_ifs
  · rw [hsof,Nat.or_assoc,hboth,or_flags hlen]
  · rw [or_flags hlen]
  · rw [hsof,or_flags hlen]
  · rw [Nat.mul_zero,Nat.add_zero]

/-- The fields of a control word made of a length and the flags. -/
theorem Bd.fields {d : Bd} {len : ℕ} {sof eof : Prop} [Decidable sof] [Decidable eof]
    (hlen : len < 2^26)
    (h : d.control = len + 2^26*((if sof then 2 else 0) + if eof then 1 else 0)) :
    d.length = len ∧ d.sof = decide sof ∧ d.eof = decide eof ∧ d.Packed := by
  have hlength : d.length = len := by
    rw [Bd.length,h,Nat.add_mul_mod_self_left,Nat.mod_eq_of_lt hlen]
  have hsof : d.sof = decide sof := by
    rw [Bd.sof,h,Nat.testBit_eq_decide_div_mod_eq,decide_eq_decide]
    split_ifs with hs he he <;> simp only [hs,iff_true,iff_false] <;> omega
  have heof : d.eof = decide eof := by
    rw [Bd.eof,h,Nat.testBit_eq_decide_div_mod_eq,decide_eq_decide]
    split_ifs with hs he he <;> simp only [he,iff_true,iff_false] <;> omega
  refine ⟨hlength,hsof,heof,?_⟩
  rw [Bd.Packed,hlength,hsof,heof,h,pow_succ 2 26,Nat.mul_add,mul_ite,mul_ite,Nat.mul_zero,
    Nat.mul_one,Nat.add_assoc]
  simp only [decide_eq_true_eq]

theorem decodeBd_bdBytes {m : Memory} {a next buf control : ℕ} (hn : next < 2^32)
    (hb : buf < 2^32) (hc : control < 2^32) (h : read m a bdSize = bdBytes next buf control) :
    (decodeBd m a).next = next ∧ (decodeBd m a).buf = buf ∧ (decodeBd m a).control = control := by
  rcases words_bdBytes hn hb hc h with ⟨h00,h04,h08,h0c,h18⟩
  simp only [decodeBd,Bd.next,Bd.buf,h00,h04,h08,h0c,h18,Nat.mul_zero,Nat.add_zero,and_self]

theorem follows_range {m : Memory} {addr : ℕ → ℕ} {n : ℕ}
    (hnext : ∀ i < n, (decodeBd m (addr i)).next = addr (i+1)) (hne : ∀ i < n, addr i ≠ addr n)
    (k : ℕ) (hk : k ≤ n) :
    Follows m (addr n) (addr (n-k)) ((List.range' (n-k) (k+1)).map addr) := by
  induction k with
  | zero => exact .last
  | succ k ih =>
      have hstep : n - (k+1) + 1 = n - k := by omega
      have h := ih (by omega)
      rw [List.range'_succ,List.map_cons,hstep]
      apply Follows.next (hne _ (by omega))
      rw [hnext _ (by omega),hstep]
      exact h

theorem sum_take_lengths (totalSize : ℕ) {k : ℕ} (hk : k ≤ numBd totalSize) :
    (((List.range (numBd totalSize)).map (bdLength totalSize)).take k).sum =
      min (k*dmaChunkSize) totalSize := by
  induction k with
  | zero => simp
  | succ k ih =>
      have hlt := lt_of_lt_numBd (Nat.lt_of_succ_le hk)
      have hprev := ih (by omega)
      rw [← List.map_take,List.take_range,Nat.min_eq_left (by omega)] at hprev
      rw [Nat.min_eq_left hlt.le] at hprev
      rw [← List.map_take,List.take_range,Nat.min_eq_left hk,List.range_succ,List.map_append,
        List.sum_append,hprev,min_succ_mul hlt,List.map_singleton,List.sum_singleton]

/-- Addresses of the descriptors of a ring. -/
def ringAddrs (base totalSize : ℕ) : List ℕ := (List.range (numBd totalSize)).map (bdAddr base)

def ringLengths (totalSize : ℕ) : List ℕ := (List.range (numBd totalSize)).map (bdLength totalSize)

section Ring
variable {totalSize base bufBase : ℕ} {control : ℕ → ℕ} {m : Memory}

theorem getElem_ringAddrs {i : ℕ} (h : i < (ringAddrs base totalSize).length) :
    (ringAddrs base totalSize)[i] = bdAddr base i ∧ i < numBd totalSize := by
  simp only [ringAddrs,List.length_map,List.length_range] at h
  exact ⟨by simp only [ringAddrs,List.getElem_map,List.getElem_range],h⟩

/-- A ring that stands in memory is a chain from its first descriptor to its
last one. -/
theorem chain_ring (hpos : 0 < totalSize) (h : totalSize ≤ fileChunkSize)
    (hbase : base ≤ mm2sBdBase + 0x200000) (hbuf : bufBase ≤ mm2sBdBase + 0x6000000)
    (hcontrol : ∀ i, control i < 2^32) (hlength : ∀ i, control i % 2^26 = bdLength totalSize i)
    (hread : ∀ i < numBd totalSize, read m (bdAddr base i) bdSize =
      bdBytes (nextBd base totalSize i) (bufBase + i*dmaChunkSize) (control i)) :
    Chain m base (base + (numBd totalSize - 1)*bdSize) bufBase (ringAddrs base totalSize)
      (ringLengths totalSize) := by
  have hn := numBd_pos hpos
  have hdec := fun i hi => decodeBd_bdBytes (nextBd_lt h hbase hi) (bufAddr_lt h hbuf hi)
    (hcontrol i) (hread i hi)
  constructor
  · have hnext : ∀ i < numBd totalSize - 1,
        (decodeBd m (bdAddr base i)).next = bdAddr base (i+1) := by
      intro i hi
      rw [(hdec i (by omega)).1,nextBd,if_neg (by omega),bdAddr,bdAddr,Nat.succ_mul]
      omega
    have hne : ∀ i < numBd totalSize - 1, bdAddr base i ≠ bdAddr base (numBd totalSize - 1) := by
      intro i hi
      simp only [bdAddr,bdSize]
      omega
    have hall := follows_range hnext hne (numBd totalSize - 1) le_rfl
    rw [Nat.sub_self,Nat.sub_add_cancel hn,← List.range_eq_range',bdAddr,bdAddr,Nat.zero_mul,
      Nat.add_zero] at hall
    exact hall
  · rw [ringAddrs,List.pairwise_map]
    apply List.pairwise_lt_range.imp
    intro i j hij
    simp only [bdAddr,bdSize]
    omega
  · rw [ringAddrs,ringLengths,List.map_map]
    apply List.map_congr_left
    intro i hi
    rw [Function.comp_apply,Bd.length,(hdec i (List.mem_range.mp hi)).2.2,hlength i]
  · intro i hi
    rcases getElem_ringAddrs hi with ⟨haddr,hlt⟩
    rw [haddr,(hdec i hlt).2.1,ringLengths,sum_take_lengths totalSize hlt.le,
      Nat.min_eq_left (lt_of_lt_numBd hlt).le]

theorem sum_ringLengths (totalSize : ℕ) : (ringLengths totalSize).sum = totalSize := by
  have h := sum_take_lengths totalSize (le_refl (numBd totalSize))
  rw [List.take_of_length_le (by simp),Nat.min_eq_right (le_numBd_mul totalSize)] at h
  exact h

theorem mem_ringLengths {len : ℕ} (h : len ∈ ringLengths totalSize) :
    1 ≤ len ∧ len ≤ dmaChunkSize := by
  rcases List.mem_map.mp h with ⟨i,hi,rfl⟩
  exact ⟨bdLength_pos (List.mem_range.mp hi),bdLength_le totalSize i⟩

end Ring

/-- The areas a round uses: the two rings, the transmit and the receive buffer. -/
def areas (totalSize : ℕ) : List (ℕ × ℕ) :=
  [(mm2sBdBase,numBd totalSize*bdSize),(s2mmBdBase,numBd totalSize*bdSize),
    (txBufBase,totalSize),(rxBufBase,totalSize)]

theorem areas_apart {totalSize : ℕ} (h : totalSize ≤ fileChunkSize) :
    (areas totalSize).Pairwise fun x y => Apart x.1 x.2 y.1 y.2 := by
  have hn := numBd_le h
  rcases memory_map with ⟨hring,htx,hrx⟩
  have hsize : fileChunkSize = 0x4000000 := rfl
  simp only [areas,List.pairwise_cons,List.mem_cons,List.not_mem_nil,or_false,forall_eq_or_imp,
    forall_eq,Apart,bdSize,IsEmpty.forall_iff,implies_true,List.Pairwise.nil,and_true]
  omega

/-- For every size of a round both rings are chains from CURDESC to TAILDESC
over the same lengths, which add up to the size; only the first and the last
descriptor of the transmit ring carry the frame flags, and rings and buffers
have no byte in common. -/
theorem descriptor_chains (m : Memory) (txData : List Byte) (hpos : 1 ≤ txData.length)
    (hmax : txData.length ≤ 64*1024*1024) :
    ∃ m' e, prepare m txData = some m' ∧ start m' txData.length = some e ∧ e.memory = m' ∧
      e.mm2s = some mm2sBdBase ∧ e.s2mm = some s2mmBdBase ∧
      ∃ tx rx lengths, Chain m' mm2sBdBase e.mm2sTail txBufBase tx lengths ∧
        Chain m' s2mmBdBase e.s2mmTail rxBufBase rx lengths ∧
        lengths.length = numBd txData.length ∧
        (∀ len ∈ lengths, 1 ≤ len ∧ len ≤ 4*1024*1024) ∧ lengths.sum = txData.length ∧
        (∀ (i : ℕ) (h : i < tx.length), (decodeBd m' tx[i]).sof = decide (i = 0) ∧
          (decodeBd m' tx[i]).eof = decide (i+1 = tx.length) ∧ (decodeBd m' tx[i]).Packed) ∧
        (∀ addr ∈ rx, (decodeBd m' addr).sof = false ∧ (decodeBd m' addr).eof = false ∧
          (decodeBd m' addr).Packed) ∧
        (areas txData.length).Pairwise fun x y => Apart x.1 x.2 y.1 y.2 := by
  have h : txData.length ≤ fileChunkSize := hmax
  have hn := numBd_pos hpos
  rcases memory_map with ⟨hring,htx,hrx⟩
  rcases prepare_bytes m h with ⟨m',hprep,hmm2s,hs2mm,-⟩
  have hlt : ∀ i, bdLength txData.length i < 2^32 :=
    fun i => (bdLength_lt txData.length i).trans (by decide)
  refine ⟨m',_,hprep,start_eq m' h,rfl,rfl,rfl,ringAddrs mm2sBdBase txData.length,
    ringAddrs s2mmBdBase txData.length,ringLengths txData.length,?_,?_,?_,?_,
    sum_ringLengths txData.length,?_,?_,areas_apart h⟩
  · exact chain_ring hpos h (by omega) (by omega) (mm2sControl_lt txData.length)
      (mm2sControl_mod txData.length) hmm2s
  · exact chain_ring hpos h (by omega) (by omega) hlt
      (fun i => Nat.mod_eq_of_lt (bdLength_lt txData.length i)) hs2mm
  · rw [ringLengths,List.length_map,List.length_range]
  · exact fun len hlen => mem_ringLengths hlen
  · intro i hi
    rcases getElem_ringAddrs hi with ⟨haddr,hlast⟩
    have hcontrol := (decodeBd_bdBytes (nextBd_lt h (by omega) hlast)
      (bufAddr_lt h (by omega) hlast) (mm2sControl_lt txData.length i) (hmm2s i hlast)).2.2
    rw [mm2sControl_eq] at hcontrol
    rcases Bd.fields (bdLength_lt txData.length i) hcontrol with ⟨-,hsof,heof,hpacked⟩
    rw [haddr]
    refine ⟨hsof,heof.trans ?_,hpacked⟩
    rw [ringAddrs,List.length_map,List.length_range,decide_eq_decide]
    omega
  · intro addr haddr
    rcases List.mem_map.mp haddr with ⟨i,hi,rfl⟩
    have hlast := List.mem_range.mp hi
    have hcontrol := (decodeBd_bdBytes (nextBd_lt h (by omega) hlast)
      (bufAddr_lt h (by omega) hlast) (hlt i) (hs2mm i hlast)).2.2
    have hplain : (decodeBd m' (bdAddr s2mmBdBase i)).control = bdLength txData.length i +
        2^26*((if False then 2 else 0) + if False then 1 else 0) := by
      rw [hcontrol]
      simp
    rcases Bd.fields (bdLength_lt txData.length i) hplain with ⟨-,hsof,heof,hpacked⟩
    exact ⟨hsof,heof,hpacked⟩

/-- One byte more than a descriptor takes: the first of two starts the frame, the second one
ends it. -/
theorem descriptor_chains_two : ∃ m' e,
    prepare (fun _ => 0) (List.replicate 0x400001 7) = some m' ∧ start m' 0x400001 = some e ∧
      ∃ tx rx lengths, Chain m' mm2sBdBase e.mm2sTail txBufBase tx lengths ∧
        Chain m' s2mmBdBase e.s2mmTail rxBufBase rx lengths ∧ lengths.length = 2 ∧
        lengths.sum = 0x400001 ∧
        ∀ (i : ℕ) (h : i < tx.length), (decodeBd m' tx[i]).sof = decide (i = 0) ∧
          (decodeBd m' tx[i]).eof = decide (i+1 = tx.length) ∧ (decodeBd m' tx[i]).Packed := by
  have hsize : (List.replicate 0x400001 (7 : Byte)).length = 0x400001 := List.length_replicate
  have hchains := descriptor_chains (fun _ => 0) (List.replicate 0x400001 7)
    (by rw [hsize]; decide) (by rw [hsize]; decide)
  rw [hsize] at hchains
  rcases hchains with ⟨m',e,hprep,hstart,-,-,-,tx,rx,lengths,htx,hrx,hlen,-,hsum,hflags,-⟩
  exact ⟨m',e,hprep,hstart,tx,rx,lengths,htx,hrx,hlen,hsum,hflags⟩

end FpgaTest.DescriptorRings
