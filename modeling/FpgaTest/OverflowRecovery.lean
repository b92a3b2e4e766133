import FpgaTest.StreamDelivery

/-!
# Framing across the overflow branch

The branch forgets the pending bytes and stores the new segment at the front
of the buffer. The segment then starts at a position of the stream that is not
a multiple of the message size, unless nothing was pending. Which of the two
happens is decided by the segment lengths alone.

For the direction from framing to lengths, the stream that marks every
multiple of 24 shows the shift: a block taken at another position starts with
an unmarked byte.
-/
namespace FpgaTest.OverflowRecovery
open BlockFraming CommandServer StreamDelivery

/-- One at every block boundary, zero elsewhere. -/
def marker (i : ℕ) : Byte := if i % messageSize = 0 then 1 else 0

/-- The marked stream from position `pos`, cut into the given lengths. -/
def markerCut : ℕ → List ℕ → List (List Byte)
  | _, [] => []
  | pos, n::ns => (List.range' pos n).map marker :: markerCut (pos+n) ns

theorem markerCut_append (pos : ℕ) (ms ns : List ℕ) :
    markerCut pos (ms ++ ns) = markerCut pos ms ++ markerCut (pos + ms.sum) ns := by
  induction ms generalizing pos with
  | nil => simp [markerCut]
  | cons m ms ih => simp [markerCut,ih,Nat.add_assoc]

theorem markerCut_flatten (pos : ℕ) (ns : List ℕ) :
    (markerCut pos ns).flatten = (List.range' pos ns.sum).map marker := by
  induction ns generalizing pos with
  | nil => rfl
  | cons n ns ih =>
      rw [markerCut,List.flatten_cons,ih,← List.map_append,List.sum_cons]
      congr 1
      simp

theorem markerCut_lengths (pos : ℕ) (ns : List ℕ) : (markerCut pos ns).map List.length = ns := by
  induction ns generalizing pos with
  | nil => rfl
  | cons n ns ih => simp [markerCut,ih]

theorem marker_head {ns : List ℕ} {m : List Byte}
    (h : m ∈ blocks messageSize (markerCut 0 ns).flatten) : m.head? = some 1 := by
  obtain ⟨i,hi,rfl⟩ := mem_blocks.mp h
  have hk : 0 < messageSize := by decide
  have hlt : i * messageSize < (markerCut 0 ns).flatten.length := by
    have := Nat.div_mul_le_self (markerCut 0 ns).flatten.length messageSize
    have := Nat.mul_le_mul_right messageSize (Nat.succ_le_of_lt hi)
    rw [Nat.succ_mul] at this
    omega
  rw [List.head?_take,if_neg (by omega),List.head?_drop,markerCut_flatten,List.getElem?_map]
  rw [markerCut_flatten,List.length_map,List.length_range'] at hlt
  rw [List.getElem?_range' hlt,Option.map_some,marker,Nat.zero_add,Nat.one_mul,Nat.mul_mod_left,
    if_pos rfl]

/-- At the first loss, the segment's own first block is delivered from a
position that is no multiple of the message size. -/
theorem shifted_block {ns : List ℕ} (h : ¬ LosslessCut messageSize bufferSize 0 ns) :
    ∃ m ∈ (feed messageSize bufferSize [] (markerCut 0 ns)).2,
      m ∉ blocks messageSize (markerCut 0 ns).flatten := by
  have hk : 0 < messageSize := by decide
  have hb : bufferSize = messageSize + 1000 := rfl
  obtain ⟨before,n,after,rfl,hbefore,hne,hle⟩ := exists_first_loss hk h
  rw [Nat.zero_add] at hne hle
  have hn : messageSize ≤ n := by
    have hmod := Nat.mod_lt before.sum hk
    have hsize : messageSize = 24 := rfl
    generalize before.sum % messageSize = r at hmod hle
    omega
  let x := (List.range' before.sum n).map marker
  have hx : x.length = n := by simp [x]
  have hcut : markerCut 0 (before ++ n::after) =
      markerCut 0 before ++ x::markerCut (before.sum + n) after := by
    rw [markerCut_append,Nat.zero_add,markerCut]
  have hpend : (feed messageSize bufferSize [] (markerCut 0 before)).1.length =
      before.sum % messageSize := by
    rw [feed_lossless hk [] _ hk (by rwa [markerCut_lengths]),length_residue,List.nil_append,
      markerCut_flatten,List.length_map,List.length_range']
  have habsorb :
      absorb bufferSize (feed messageSize bufferSize [] (markerCut 0 before)).1 x = x := by
    unfold absorb
    rw [hpend,hx,if_pos hle]
  refine ⟨x.take messageSize,?_,?_⟩
  · rw [hcut,feed_append]
    simp only [feed,habsorb]
    rw [blocks_of_le hk (show messageSize ≤ x.length from hx ▸ hn)]
    simp
  · intro hmem
    have hhead := marker_head hmem
    rw [List.head?_take,if_neg (by omega)] at hhead
    obtain ⟨j,rfl⟩ : ∃ j, n = j+1 := ⟨n-1,by omega⟩
    have hmark : marker before.sum = 1 := by
      simpa [x,List.range'_succ] using hhead
    rw [marker,if_neg hne] at hmark
    exact absurd hmark (by decide)

theorem markerCut_length_le {ns : List ℕ} (h : ∀ n ∈ ns, n ≤ bufferSize) {x : List Byte}
    (hx : x ∈ markerCut 0 ns) : x.length ≤ bufferSize := by
  apply h
  rw [← markerCut_lengths 0 ns]
  exact List.mem_map_of_mem hx

/-- The marked stream delivered in segments of the given lengths. -/
def markedSegments (ns : List ℕ) : List Pbuf := (markerCut 0 ns).map segment

theorem markedSegments_payload {ns : List ℕ} (h : ∀ n ∈ ns, n ≤ bufferSize) :
    (markedSegments ns).map Pbuf.payload = markerCut 0 ns := by
  rw [markedSegments,List.map_map]
  nth_rewrite 2 [← List.map_id (markerCut 0 ns)]
  exact List.map_congr_left fun x hx => segment_payload (markerCut_length_le h hx)

theorem markedSegments_plain {ns : List ℕ} {p : Pbuf} (hp : p ∈ markedSegments ns) :
    p.next = [] := by
  obtain ⟨x,-,rfl⟩ := List.mem_map.mp hp
  rfl

theorem map_len_eq (ps : List Pbuf) : ps.map Pbuf.len = (ps.map Pbuf.payload).map List.length :=
  (List.map_map ..).symm

theorem shifted_message {ns : List ℕ} (hns : ∀ n ∈ ns, n ≤ bufferSize)
    (h : ¬ LosslessCut messageSize bufferSize 0 ns) :
    ∃ t calls, deliver 1 .start (markedSegments ns) = some (t,calls) ∧
      ∃ m ∈ dispatched calls, m ∉ blocks messageSize (stream (markedSegments ns)) := by
  have hpay := markedSegments_payload hns
  have hfit : ∀ p ∈ markedSegments ns, p.len ≤ bufferSize := by
    intro p hp
    have hmem : p.payload ∈ markerCut 0 ns := hpay ▸ List.mem_map_of_mem hp
    exact markerCut_length_le hns hmem
  obtain ⟨t,calls,hd,-,-,hfeed,-⟩ := deliver_feed 1 .start (markedSegments ns) (by decide) hfit
  rw [hpay,pending_of_empty (s := .start) rfl] at hfeed
  obtain ⟨m,hm,hout⟩ := shifted_block h
  refine ⟨t,calls,hd,m,?_,?_⟩
  · rw [← hfeed] at hm
    exact hm
  · rw [stream_of_plain fun p hp => by rw [markedSegments_plain hp,List.flatten_nil],hpay]
    exact hout

/-- For a cutting into segments of at most 1024 bytes: every stream cut that
way dispatches only blocks that start at a multiple of 24 if and only if every
segment that takes the overflow branch arrives with nothing pending. -/
theorem overflow_keeps_framing_iff (lens : List ℕ) (hlens : ∀ n ∈ lens, n ≤ bufferSize) :
    (∀ (tpcb : Pcb) (s : Server) (segs : List Pbuf), s.recvLen = 0 →
        (∀ p ∈ segs, p.next = []) → segs.map Pbuf.len = lens →
        ∃ t calls, deliver tpcb s segs = some (t,calls) ∧
          ∀ m ∈ dispatched calls, m ∈ blocks messageSize (stream segs)) ↔
      LosslessCut messageSize bufferSize 0 lens := by
  constructor
  · intro hall
    by_contra hloss
    obtain ⟨t,calls,hd,m,hm,hout⟩ := shifted_message hlens hloss
    have hlen : (markedSegments lens).map Pbuf.len = lens := by
      rw [map_len_eq,markedSegments_payload hlens,markerCut_lengths]
    obtain ⟨u,calls',hd',hmem⟩ := hall 1 .start (markedSegments lens) rfl
      (fun _ hp => markedSegments_plain hp) hlen
    obtain ⟨-,rfl⟩ : t = u ∧ calls = calls' := by simpa using hd.symm.trans hd'
    exact hout (hmem m hm)
  · rintro hcut tpcb s segs hs hplain rfl
    have hfit : ∀ p ∈ segs, p.len ≤ bufferSize := fun p hp => hlens _ (List.mem_map_of_mem hp)
    rw [map_len_eq] at hcut
    obtain ⟨t,calls,hd,hmsgs,-⟩ := deliver_lossless tpcb (s := s)
      (by rw [hs]; decide) hfit (by rwa [length_pending (by omega),hs])
    rw [pending_of_empty hs,List.nil_append,
      ← stream_of_plain fun p hp => by rw [hplain p hp,List.flatten_nil]] at hmsgs
    exact ⟨t,calls,hd,fun m hm => hmsgs ▸ hm⟩

/-- A full buffer into an empty one takes the branch and loses nothing. -/
theorem overflow_keeps_framing_full_segment :
    (∀ (tpcb : Pcb) (s : Server) (segs : List Pbuf), s.recvLen = 0 →
        (∀ p ∈ segs, p.next = []) → segs.map Pbuf.len = [1024,40] →
        ∃ t calls, deliver tpcb s segs = some (t,calls) ∧
          ∀ m ∈ dispatched calls, m ∈ blocks messageSize (stream segs)) ↔
      LosslessCut messageSize bufferSize 0 [1024,40] :=
  overflow_keeps_framing_iff [1024,40] (by decide)

/-- Twelve pending bytes and a segment of 1012: the message dispatched next
starts at position twelve of the stream. -/
theorem overflow_shifts_framing :
    ∃ t calls, deliver 1 .start (markedSegments [12,1012]) = some (t,calls) ∧
      ∃ m ∈ dispatched calls, m ∉ blocks messageSize (stream (markedSegments [12,1012])) :=
  shifted_message (by decide) (by decide)

end FpgaTest.OverflowRecovery
