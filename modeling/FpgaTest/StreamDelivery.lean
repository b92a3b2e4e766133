import FpgaTest.CommandServer

/-!
# What reaches the command dispatch from a byte stream

All results of this module are about data callbacks on one connection. The
stream of a list of chains is the concatenation of all their bytes; a chain
with nothing behind its first pbuf is a plain segment.

With plain segments that pass the overflow test the dispatch receives exactly
the consecutive blocks of the stream. The remaining results give the exact
conditions under which the copy stays inside the buffer, a chain is consumed
completely, and the overflow branch keeps the framing.
-/
namespace FpgaTest.StreamDelivery
open BlockFraming CommandServer

def stream (ps : List Pbuf) : List Byte := (ps.map Pbuf.bytes).flatten

/-- Every call takes the branch without overflow. -/
def Passes (tpcb : Pcb) : Server → List Pbuf → Prop
  | _, [] => True
  | s, p::ps => p.len + s.recvLen < bufferSize ∧
      ∀ t calls, recvCallback s tpcb (some p) = some (t,calls) → Passes tpcb t ps

theorem Passes.initial {tpcb : Pcb} {s : Server} {pre ps : List Pbuf} (h : Passes tpcb s ps)
    (hpre : pre <+: ps) : Passes tpcb s pre := by
  induction pre generalizing s ps with
  | nil => trivial
  | cons p pre ih =>
      obtain ⟨post,rfl⟩ := hpre
      exact ⟨h.1,fun t calls ht => ih (h.2 t calls ht) ⟨post,rfl⟩⟩

/-- Segments of at most 1000 bytes never trip the test. -/
theorem passes_of_le {tpcb : Pcb} {s : Server} {ps : List Pbuf} (hs : s.recvLen < messageSize)
    (hp : ∀ p ∈ ps, p.len ≤ 1000) : Passes tpcb s ps := by
  induction ps generalizing s with
  | nil => trivial
  | cons p ps ih =>
      have hlen := hp p (by simp)
      have hb : messageSize + 1000 = bufferSize := by decide
      refine ⟨by omega,?_⟩
      intro t calls ht
      obtain ⟨u,hu,-,hulen,-⟩ := recvCallback_data tpcb (s := s) (p := p) (by omega) (by omega)
      obtain ⟨rfl,-⟩ : u = t ∧ _ := by simpa using hu.symm.trans ht
      apply ih _ (fun q hq => hp q (by simp [hq]))
      rw [hulen]
      exact Nat.mod_lt _ (by decide)

theorem Passes.lossless {tpcb : Pcb} {s : Server} {ps : List Pbuf} (hs : s.recvLen ≤ bufferSize)
    (h : Passes tpcb s ps) :
    LosslessCut messageSize bufferSize s.pending.length ((ps.map Pbuf.payload).map List.length) ∧
      ∀ p ∈ ps, p.len ≤ bufferSize := by
  induction ps generalizing s with
  | nil => exact ⟨trivial,by simp⟩
  | cons p ps ih =>
      obtain ⟨hpass,hrest⟩ := h
      have hpend := length_pending hs
      obtain ⟨t,ht,-,htlen,htpend⟩ := recvCallback_data tpcb (s := s) (p := p) hs (by omega)
      have hlt := Nat.mod_lt (absorb bufferSize s.pending p.payload).length
        (show 0 < messageSize by decide)
      have hle : t.recvLen ≤ bufferSize := by
        rw [htlen]
        exact hlt.le.trans (by decide)
      obtain ⟨hcut,hfit⟩ := ih hle (hrest _ _ ht)
      rw [htpend,length_residue,length_absorb] at hcut
      refine ⟨⟨?_,hcut⟩,?_⟩
      · intro hl
        unfold Pbuf.len at hpass
        omega
      · intro q hq
        rcases List.mem_cons.mp hq with rfl | hq
        · omega
        · exact hfit q hq

theorem stream_of_plain {ps : List Pbuf} (h : ∀ p ∈ ps, p.next.flatten = []) :
    stream ps = (ps.map Pbuf.payload).flatten := by
  unfold stream
  congr 1
  apply List.map_congr_left
  intro p hp
  rw [Pbuf.bytes,h p hp,List.append_nil]

/-- Lossless delivery of the first payloads: the blocks of what was pending
and what was delivered are dispatched, and the tail is kept. -/
theorem deliver_lossless (tpcb : Pcb) {s : Server} {ps : List Pbuf} (hs : s.recvLen < messageSize)
    (hfit : ∀ p ∈ ps, p.len ≤ bufferSize)
    (hcut : LosslessCut messageSize bufferSize s.pending.length
      ((ps.map Pbuf.payload).map List.length)) :
    ∃ t calls, deliver tpcb s ps = some (t,calls) ∧
      dispatched calls = blocks messageSize (s.pending ++ (ps.map Pbuf.payload).flatten) ∧
      t.recvLen = (s.pending ++ (ps.map Pbuf.payload).flatten).length % messageSize ∧
      t.pending = residue messageSize (s.pending ++ (ps.map Pbuf.payload).flatten) ∧
      recved calls = ps.map Pbuf.len := by
  have hb : messageSize ≤ bufferSize := by decide
  have hpend : s.pending.length = s.recvLen := length_pending (by omega)
  obtain ⟨t,calls,hd,-,htlen,hfeed,hrecved⟩ := deliver_feed tpcb s ps (by omega) hfit
  rw [feed_lossless (by decide) s.pending _ (by omega) hcut] at hfeed
  obtain ⟨htpend,hmsgs⟩ := Prod.mk.inj hfeed
  refine ⟨t,calls,hd,hmsgs,?_,htpend,hrecved⟩
  rw [← length_pending htlen,htpend,length_residue]

theorem pending_of_empty {s : Server} (h : s.recvLen = 0) : s.pending = [] := by
  rw [Server.pending,h,List.take_zero]

/-- Framing is independent of the cutting: after every call the messages
dispatched so far are the consecutive 24-byte blocks of the bytes received so
far, and the buffer holds the bytes behind the last block. -/
theorem deliver_blocks (tpcb : Pcb) (s : Server) (segs : List Pbuf)
    (hplain : ∀ p ∈ segs, p.next = []) (hs : s.recvLen = 0) (hpass : Passes tpcb s segs)
    (pre : List Pbuf) (hpre : pre <+: segs) :
    ∃ t calls, deliver tpcb s pre = some (t,calls) ∧
      dispatched calls = blocks messageSize (stream pre) ∧
      t.recvLen = (stream pre).length % messageSize ∧
      t.pending = residue messageSize (stream pre) := by
  have hplain' : ∀ p ∈ pre, p.next.flatten = [] := by
    intro p hp
    rw [hplain p (hpre.subset hp),List.flatten_nil]
  obtain ⟨hcut,hfit⟩ := (hpass.initial hpre).lossless (by omega)
  obtain ⟨t,calls,hd,hmsgs,hlen,hpend,-⟩ := deliver_lossless tpcb (by rw [hs]; decide) hfit hcut
  rw [pending_of_empty hs,List.nil_append,← stream_of_plain hplain'] at hmsgs hlen hpend
  exact ⟨t,calls,hd,hmsgs,hlen,hpend⟩

/-- A plain segment; a pbuf cannot be longer than its 16-bit length field. -/
def segment (xs : List Byte) : Pbuf :=
  ⟨xs.take 65535,[],by simp only [List.length_take,List.flatten_nil,List.length_nil]; omega⟩

theorem segment_payload {xs : List Byte} (h : xs.length ≤ bufferSize) :
    (segment xs).payload = xs :=
  List.take_of_length_le (h.trans (by decide))

/-- Ten bytes, then twenty: one block after the second call and six bytes left. -/
theorem deliver_blocks_two_segments :
    ∃ t calls, deliver 1 .start [segment (List.replicate 10 1),segment (List.replicate 20 2)] =
        some (t,calls) ∧
      dispatched calls = blocks messageSize
        (stream [segment (List.replicate 10 1),segment (List.replicate 20 2)]) ∧
      t.recvLen = (stream [segment (List.replicate 10 1),
        segment (List.replicate 20 2)]).length % messageSize ∧
      t.pending = residue messageSize
        (stream [segment (List.replicate 10 1),segment (List.replicate 20 2)]) :=
  deliver_blocks 1 .start [segment (List.replicate 10 1),segment (List.replicate 20 2)]
    (by simp [segment]) rfl (passes_of_le (by decide) (by simp [segment,Pbuf.len]))
    _ (List.prefix_refl _)

/-- In every reachable state the copy stays inside the buffer, and the
callback returns, exactly for segments of at most 1024 bytes. The overflow
branch resets the offset but not the length. -/
theorem memcpy_inside_iff (s : Server) (hs : Reachable s) (tpcb : Pcb) (p : Pbuf) :
    (copyOffset s p + p.len ≤ bufferSize ↔ p.len ≤ bufferSize) ∧
      ((recvCallback s tpcb (some p)).isSome ↔ p.len ≤ bufferSize) := by
  have hb : messageSize ≤ bufferSize := by decide
  have hlen := hs.recvLen_lt
  constructor
  · unfold copyOffset
    split_ifs <;> omega
  · constructor
    · intro hsome
      by_contra hlong
      rw [recvCallback_overrun tpcb (by omega)] at hsome
      cases hsome
    · intro hp
      obtain ⟨t,ht,-⟩ := recvCallback_data tpcb (s := s) (p := p) (by omega) hp
      rw [ht]
      rfl

/-- A full Ethernet segment, longer than the buffer. -/
def fullSegment : Pbuf :=
  ⟨List.replicate 1460 0,[],by rw [List.length_replicate]; decide⟩

theorem memcpy_inside_start :
    Reachable .start ∧
      (copyOffset .start (segment (List.replicate 1024 0)) +
        (segment (List.replicate 1024 0)).len ≤ bufferSize ↔
          (segment (List.replicate 1024 0)).len ≤ bufferSize) :=
  ⟨.start,(memcpy_inside_iff .start .start 1 (segment (List.replicate 1024 0))).1⟩

theorem memcpy_outside_fullSegment :
    Reachable .start ∧ fullSegment.len < 2^16 ∧
      ¬ copyOffset .start fullSegment + fullSegment.len ≤ bufferSize := by
  have hlen : fullSegment.len = 1460 := List.length_replicate
  have hb : bufferSize = 1024 := rfl
  exact ⟨.start,by omega,by omega⟩

/-- The whole chain, not only its first pbuf, passes the overflow test. -/
def PassesTotal (tpcb : Pcb) : Server → List Pbuf → Prop
  | _, [] => True
  | s, p::ps => p.totLen + s.recvLen < bufferSize ∧
      ∀ t calls, recvCallback s tpcb (some p) = some (t,calls) → PassesTotal tpcb t ps

theorem len_le_totLen (p : Pbuf) : p.len ≤ p.totLen := Nat.le_add_right _ _

theorem PassesTotal.passes {tpcb : Pcb} {s : Server} {ps : List Pbuf}
    (h : PassesTotal tpcb s ps) : Passes tpcb s ps := by
  induction ps generalizing s with
  | nil => trivial
  | cons p ps ih =>
      have := len_le_totLen p
      exact ⟨by have := h.1; omega,fun t calls ht => ih (h.2 t calls ht)⟩

theorem next_flatten_eq_nil_iff (p : Pbuf) : p.next.flatten = [] ↔ p.len = p.totLen := by
  rw [← List.length_eq_zero_iff]
  unfold Pbuf.len Pbuf.totLen
  omega

theorem sum_len_eq_iff (ps : List Pbuf) :
    (ps.map Pbuf.len).sum = (ps.map Pbuf.totLen).sum ↔ ∀ p ∈ ps, p.len = p.totLen := by
  have hle : ∀ qs : List Pbuf, (qs.map Pbuf.len).sum ≤ (qs.map Pbuf.totLen).sum :=
    fun qs => List.sum_le_sum fun p _ => len_le_totLen p
  induction ps with
  | nil => simp
  | cons p ps ih =>
      have hp := len_le_totLen p
      have hps := hle ps
      simp only [List.map_cons,List.sum_cons,List.forall_mem_cons,← ih]
      omega

/-- Chains are consumed completely, and the receive window is given back
completely, if and only if every chain carries all its bytes in its first
pbuf. -/
theorem chains_consumed_iff (tpcb : Pcb) (s : Server) (ps : List Pbuf)
    (hs : s.recvLen < messageSize) (hpass : PassesTotal tpcb s ps) :
    ∃ t calls, deliver tpcb s ps = some (t,calls) ∧
      (((dispatched calls).flatten ++ t.pending = s.pending ++ stream ps ∧
        (recved calls).sum = (ps.map Pbuf.totLen).sum) ↔ ∀ p ∈ ps, p.len = p.totLen) := by
  have hb : messageSize ≤ bufferSize := by decide
  obtain ⟨hcut,hfit⟩ := hpass.passes.lossless (by omega)
  obtain ⟨t,calls,hd,hmsgs,-,hpend,hrecved⟩ := deliver_lossless tpcb hs hfit hcut
  refine ⟨t,calls,hd,?_⟩
  rw [hmsgs,hpend,hrecved,blocks_flatten_residue (by decide),sum_len_eq_iff]
  constructor
  · exact And.right
  · intro hplain
    rw [stream_of_plain fun p hp => (next_flatten_eq_nil_iff p).mpr (hplain p hp)]
    exact ⟨rfl,hplain⟩

/-- Twelve bytes in each of two chained pbufs. -/
def twoPbufs : Pbuf := ⟨List.replicate 12 1,[List.replicate 12 2],by simp⟩

theorem chains_consumed_plain_segment :
    ∃ t calls, deliver 1 .start [segment (List.replicate 30 7)] = some (t,calls) ∧
      (((dispatched calls).flatten ++ t.pending =
          Server.start.pending ++ stream [segment (List.replicate 30 7)] ∧
        (recved calls).sum = ([segment (List.replicate 30 7)].map Pbuf.totLen).sum) ↔
          ∀ p ∈ [segment (List.replicate 30 7)], p.len = p.totLen) :=
  chains_consumed_iff 1 .start [segment (List.replicate 30 7)] (by decide)
    ⟨by decide,fun _ _ _ => trivial⟩

/-- The second pbuf is neither stored nor acknowledged. -/
theorem chain_tail_dropped :
    PassesTotal 1 .start [twoPbufs] ∧
      ∃ t calls, deliver 1 .start [twoPbufs] = some (t,calls) ∧
        (recved calls).sum ≠ ([twoPbufs].map Pbuf.totLen).sum ∧
        (dispatched calls).flatten ++ t.pending ≠ Server.start.pending ++ stream [twoPbufs] := by
  have hpass : PassesTotal 1 .start [twoPbufs] := ⟨by decide,fun _ _ _ => trivial⟩
  obtain ⟨hcut,hfit⟩ := hpass.passes.lossless (by decide)
  obtain ⟨t,calls,hd,hmsgs,-,hpend,hrecved⟩ := deliver_lossless 1 (by decide) hfit hcut
  refine ⟨hpass,t,calls,hd,?_,?_⟩
  · rw [hrecved]
    decide
  · rw [hmsgs,hpend]
    decide

end FpgaTest.StreamDelivery
