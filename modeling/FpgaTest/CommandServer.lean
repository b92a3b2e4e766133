import FpgaTest.BlockFraming
import FpgaTest.EventMachine

/-!
# The TCP command server

The three lwIP callbacks of `echo.c` over the statics they share: `client_pcb`,
the receive buffer of 1024 bytes and `recv_len`. A callback returns the new
statics and, in order, the calls it makes into lwIP and the messages it hands
to the command dispatch. The dispatch itself reads none of these statics, so
it appears here as one call per message; console output is left out.

`memcpy` and `memmove` on the buffer have no result when the range leaves the
buffer. A callback that would write outside therefore has no result either,
and a run of the server is a run in which this has not happened.

A pbuf chain is the payload of its first pbuf, which is all that `recv_callback`
reads, together with the payloads behind it.
-/
namespace FpgaTest.CommandServer
open BlockFraming

abbrev Byte := BitVec 8

/-- Address of a connection block; NULL is `none`. -/
abbrev Pcb := ℕ

/-- MESSAGE_SIZE -/
def messageSize : ℕ := 24

/-- sizeof(recv_buffer) -/
def bufferSize : ℕ := 1024

structure Buffer where
  bytes : List Byte
  size : bytes.length = bufferSize

def Buffer.zero : Buffer := ⟨List.replicate bufferSize 0,List.length_replicate⟩

def Buffer.memcpy (b : Buffer) (offset : ℕ) (src : List Byte) : Option Buffer :=
  if h : offset + src.length ≤ bufferSize then
    some ⟨b.bytes.take offset ++ src ++ b.bytes.drop (offset + src.length),by
      simp only [List.length_append,List.length_take,List.length_drop,b.size]
      omega⟩
  else none

/-- `memmove(recv_buffer, recv_buffer + from, n)` -/
def Buffer.memmove (b : Buffer) (source n : ℕ) : Option Buffer :=
  if h : source + n ≤ bufferSize then
    some ⟨(b.bytes.drop source).take n ++ b.bytes.drop n,by
      simp only [List.length_append,List.length_take,List.length_drop,b.size]
      omega⟩
  else none

structure Pbuf where
  payload : List Byte
  next : List (List Byte)
  totLen_lt : payload.length + next.flatten.length < 2^16

def Pbuf.len (p : Pbuf) : ℕ := p.payload.length

def Pbuf.totLen (p : Pbuf) : ℕ := p.payload.length + p.next.flatten.length

/-- All bytes of the chain, in order. -/
def Pbuf.bytes (p : Pbuf) : List Byte := p.payload ++ p.next.flatten

structure Server where
  clientPcb : Option Pcb
  recvBuffer : Buffer
  recvLen : ℕ

/-- The statics before the first event. -/
def Server.start : Server := ⟨none,Buffer.zero,0⟩

/-- `recv_buffer[0 .. recv_len)` -/
def Server.pending (s : Server) : List Byte := s.recvBuffer.bytes.take s.recvLen

inductive Call where
  | tcpClose (pcb : Pcb)
  | tcpRecv (pcb : Pcb) (registered : Bool)
  | tcpErr (pcb : Pcb)
  | tcpAbort (pcb : Pcb)
  | tcpRecved (pcb : Pcb) (len : ℕ)
  | pbufFree (p : Pbuf)
  | dispatch (pcb : Pcb) (msg : List Byte)

inductive Err where
  | ok | abrt
  deriving DecidableEq, Repr

structure Drained where
  buffer : Buffer
  len : ℕ
  calls : List Call

/-- The `while(recv_len >= MESSAGE_SIZE)` loop. -/
def drain (tpcb : Pcb) (buffer : Buffer) (len : ℕ) : Option Drained :=
  if messageSize ≤ len then
    (buffer.memmove messageSize (len - messageSize)).bind fun moved =>
      (drain tpcb moved (len - messageSize)).map fun r =>
        { r with calls := .dispatch tpcb (buffer.bytes.take messageSize) :: r.calls }
  else some ⟨buffer,len,[]⟩
termination_by len
decreasing_by simp only [messageSize] at *; omega

/-- The value of `recv_len` at the `memcpy`, after the overflow test. -/
def copyOffset (s : Server) (p : Pbuf) : ℕ :=
  if bufferSize ≤ p.len + s.recvLen then 0 else s.recvLen

def recvCallback (s : Server) (tpcb : Pcb) : Option Pbuf → Option (Server × List Call)
  | none =>
      some ({ s with clientPcb := none, recvLen := 0 },[.tcpClose tpcb,.tcpRecv tpcb false])
  | some p =>
      (s.recvBuffer.memcpy (copyOffset s p) p.payload).bind fun filled =>
        (drain tpcb filled (copyOffset s p + p.len)).map fun r =>
          ({ s with recvBuffer := r.buffer, recvLen := r.len },
            .tcpRecved tpcb p.len :: .pbufFree p :: r.calls)

def errCallback (s : Server) : Server := { s with clientPcb := none }

def acceptCallback (s : Server) (newpcb : Pcb) : Server × List Call × Err :=
  match s.clientPcb with
  | some _ => (s,[.tcpAbort newpcb],.abrt)
  | none => ({ s with clientPcb := some newpcb },[.tcpRecv newpcb true,.tcpErr newpcb],.ok)

/-- The messages among a list of calls. -/
def dispatched (calls : List Call) : List (List Byte) :=
  calls.filterMap fun
    | .dispatch _ msg => some msg
    | _ => none

/-- The amounts given back to the receive window. -/
def recved (calls : List Call) : List ℕ :=
  calls.filterMap fun
    | .tcpRecved _ len => some len
    | _ => none

/-- Data callbacks of one connection, one after the other. -/
def deliver (tpcb : Pcb) : Server → List Pbuf → Option (Server × List Call) :=
  EventMachine.run fun s p => recvCallback s tpcb (some p)

section Refinement

theorem memcpy_take {b c : Buffer} {offset : ℕ} {src : List Byte}
    (h : b.memcpy offset src = some c) :
    c.bytes.take (offset + src.length) = b.bytes.take offset ++ src := by
  unfold Buffer.memcpy at h
  split_ifs at h with hfit
  · cases h
    have hlen : (b.bytes.take offset ++ src).length = offset + src.length := by
      simp only [List.length_append,List.length_take,b.size]
      omega
    exact List.take_left' hlen

theorem memmove_take {b c : Buffer} {source n : ℕ} (h : b.memmove source n = some c) :
    c.bytes.take n = (b.bytes.take (source + n)).drop source := by
  unfold Buffer.memmove at h
  split_ifs at h with hfit
  · cases h
    have hlen : ((b.bytes.drop source).take n).length = n := by
      simp only [List.length_take,List.length_drop,b.size]
      omega
    rw [List.drop_take,Nat.add_sub_cancel_left]
    exact List.take_left' hlen

/-- The loop terminates inside the buffer, dispatches the complete blocks of
the stored bytes in order and leaves the trailing ones at the front. -/
theorem drain_spec (tpcb : Pcb) (buffer : Buffer) (len : ℕ) (hlen : len ≤ bufferSize) :
    ∃ r, drain tpcb buffer len = some r ∧ r.len = len % messageSize ∧
      r.buffer.bytes.take r.len = residue messageSize (buffer.bytes.take len) ∧
      r.calls = (blocks messageSize (buffer.bytes.take len)).map (Call.dispatch tpcb) := by
  induction len using Nat.strong_induction_on generalizing buffer with
  | _ len ih =>
      have hstored : (buffer.bytes.take len).length = len := by
        rw [List.length_take,buffer.size]
        omega
      rw [drain]
      by_cases hm : messageSize ≤ len
      · have hk : 0 < messageSize := by decide
        obtain ⟨moved,hmoved⟩ : ∃ c, buffer.memmove messageSize (len - messageSize) = some c := by
          unfold Buffer.memmove
          rw [dif_pos (by omega)]
          exact ⟨_,rfl⟩
        have htail := memmove_take hmoved
        rw [Nat.add_sub_cancel' hm] at htail
        obtain ⟨r,hr,hrlen,hrtake,hrcalls⟩ := ih (len - messageSize) (by omega) moved (by omega)
        refine ⟨_,by rw [if_pos hm,hmoved,Option.bind_some,hr]; rfl,?_,?_,?_⟩
        · rw [hrlen,Nat.mod_eq_sub_mod hm]
        · rw [hrtake,htail,← residue_of_le hk (by omega)]
        · simp only [hrcalls,htail]
          rw [blocks_of_le hk (show messageSize ≤ (buffer.bytes.take len).length by omega),
            List.map_cons,List.take_take,Nat.min_eq_left hm]
      · have hlt : (buffer.bytes.take len).length < messageSize := by omega
        refine ⟨⟨buffer,len,[]⟩,if_neg hm,?_,?_,?_⟩
        · exact (Nat.mod_eq_of_lt (Nat.lt_of_not_le hm)).symm
        · exact (residue_of_lt hlt).symm
        · rw [blocks_of_lt hlt,List.map_nil]

theorem length_pending {s : Server} (h : s.recvLen ≤ bufferSize) :
    s.pending.length = s.recvLen := by
  rw [Server.pending,List.length_take,s.recvBuffer.size]
  omega

/-- A segment that fits the buffer is absorbed as the framing receiver absorbs
it: its complete blocks are dispatched and its tail is kept. -/
theorem recvCallback_data {s : Server} (tpcb : Pcb) {p : Pbuf} (hs : s.recvLen ≤ bufferSize)
    (hp : p.len ≤ bufferSize) :
    ∃ t, recvCallback s tpcb (some p) = some (t,
        .tcpRecved tpcb p.len :: .pbufFree p ::
          (blocks messageSize (absorb bufferSize s.pending p.payload)).map (.dispatch tpcb)) ∧
      t.clientPcb = s.clientPcb ∧
      t.recvLen = (absorb bufferSize s.pending p.payload).length % messageSize ∧
      t.pending = residue messageSize (absorb bufferSize s.pending p.payload) := by
  have hpend := length_pending hs
  have hfit : copyOffset s p + p.payload.length ≤ bufferSize := by
    unfold copyOffset Pbuf.len at *
    split_ifs <;> omega
  obtain ⟨filled,hfilled⟩ : ∃ c, s.recvBuffer.memcpy (copyOffset s p) p.payload = some c := by
    unfold Buffer.memcpy
    rw [dif_pos hfit]
    exact ⟨_,rfl⟩
  have hstored : filled.bytes.take (copyOffset s p + p.len) =
      absorb bufferSize s.pending p.payload := by
    rw [Pbuf.len,memcpy_take hfilled]
    unfold copyOffset absorb Pbuf.len
    rw [hpend]
    split_ifs
    · rw [List.take_zero,List.nil_append]
    · rfl
  obtain ⟨r,hr,hrlen,hrtake,hrcalls⟩ := drain_spec tpcb filled (copyOffset s p + p.len) hfit
  have hlen : (filled.bytes.take (copyOffset s p + p.len)).length = copyOffset s p + p.len := by
    rw [List.length_take,filled.size]
    exact Nat.min_eq_left hfit
  rw [hstored] at hrtake hrcalls hlen
  refine ⟨{ s with recvBuffer := r.buffer, recvLen := r.len },?_,rfl,?_,hrtake⟩
  · rw [recvCallback,hfilled,Option.bind_some,hr,Option.map_some,hrcalls]
  · rw [hlen]
    exact hrlen

theorem recvCallback_overrun {s : Server} (tpcb : Pcb) {p : Pbuf} (hp : bufferSize < p.len) :
    recvCallback s tpcb (some p) = none := by
  have hout : ¬ copyOffset s p + p.payload.length ≤ bufferSize := by
    unfold Pbuf.len at hp
    omega
  rw [recvCallback,Buffer.memcpy,dif_neg hout,Option.bind_none]

/-- A callback that copies outside the buffer has no result; every other data
callback leaves less than one message. -/
theorem recvCallback_recvLen {s t : Server} {tpcb : Pcb} {p : Option Pbuf} {calls : List Call}
    (hs : s.recvLen < messageSize) (h : recvCallback s tpcb p = some (t,calls)) :
    t.recvLen < messageSize := by
  cases p with
  | none =>
      cases h
      exact Nat.zero_lt_of_lt hs
  | some p =>
      by_cases hp : p.len ≤ bufferSize
      · obtain ⟨u,hu,-,hulen,-⟩ := recvCallback_data tpcb (s := s) (p := p)
          (hs.le.trans (by decide)) hp
        obtain ⟨rfl,-⟩ : u = t ∧ _ := by simpa using hu.symm.trans h
        rw [hulen]
        exact Nat.mod_lt _ (by decide)
      · rw [recvCallback_overrun tpcb (by omega)] at h
        cases h

/-- States after any order of callbacks. -/
inductive Reachable : Server → Prop
  | start : Reachable .start
  | recv {s t : Server} {tpcb : Pcb} {p : Option Pbuf} {calls : List Call} :
      Reachable s → recvCallback s tpcb p = some (t,calls) → Reachable t
  | err {s : Server} : Reachable s → Reachable (errCallback s)
  | accept {s : Server} (newpcb : Pcb) : Reachable s → Reachable (acceptCallback s newpcb).1

@[simp] theorem acceptCallback_recvLen (s : Server) (newpcb : Pcb) :
    (acceptCallback s newpcb).1.recvLen = s.recvLen := by
  unfold acceptCallback
  split <;> rfl

theorem Reachable.recvLen_lt {s : Server} (h : Reachable s) : s.recvLen < messageSize := by
  induction h with
  | start => decide
  | recv _ hrecv ih => exact recvCallback_recvLen ih hrecv
  | err _ ih => exact ih
  | accept newpcb _ ih => rwa [acceptCallback_recvLen]

@[simp] theorem dispatched_data (tpcb : Pcb) (len : ℕ) (p : Pbuf) (msgs : List (List Byte)) :
    dispatched (.tcpRecved tpcb len :: .pbufFree p :: msgs.map (.dispatch tpcb)) = msgs := by
  simp [dispatched,List.filterMap_map]

@[simp] theorem recved_data (tpcb : Pcb) (len : ℕ) (p : Pbuf) (msgs : List (List Byte)) :
    recved (.tcpRecved tpcb len :: .pbufFree p :: msgs.map (.dispatch tpcb)) = [len] := by
  simp [recved,List.filterMap_map]

@[simp] theorem dispatched_append (a b : List Call) :
    dispatched (a ++ b) = dispatched a ++ dispatched b := List.filterMap_append

@[simp] theorem recved_append (a b : List Call) : recved (a ++ b) = recved a ++ recved b :=
  List.filterMap_append

/-- Delivering segments that each fit the buffer is `feed` on their first
payloads, and the window amounts are their lengths. -/
theorem deliver_feed (tpcb : Pcb) (s : Server) (ps : List Pbuf) (hs : s.recvLen ≤ bufferSize)
    (hp : ∀ p ∈ ps, p.len ≤ bufferSize) :
    ∃ t calls, deliver tpcb s ps = some (t,calls) ∧ t.clientPcb = s.clientPcb ∧
      t.recvLen ≤ bufferSize ∧
      (t.pending,dispatched calls) =
        feed messageSize bufferSize s.pending (ps.map Pbuf.payload) ∧
      recved calls = ps.map Pbuf.len := by
  induction ps generalizing s with
  | nil => exact ⟨s,[],rfl,rfl,hs,rfl,rfl⟩
  | cons p ps ih =>
      obtain ⟨u,hu,hclient,hulen,hupend⟩ := recvCallback_data tpcb hs (hp p (by simp))
      have hle : u.recvLen ≤ bufferSize := by
        have := Nat.mod_lt (absorb bufferSize s.pending p.payload).length
          (show 0 < messageSize by decide)
        rw [hulen]
        exact this.le.trans (by decide)
      obtain ⟨t,calls,ht,htclient,htlen,htfeed,htrecved⟩ :=
        ih u hle (fun q hq => hp q (by simp [hq]))
      refine ⟨t,_,EventMachine.run_cons_iff.mpr ⟨u,_,calls,hu,ht,rfl⟩,
        htclient.trans hclient,htlen,?_,?_⟩
      · rw [hupend] at htfeed
        simp only [List.map_cons,feed,dispatched_append,dispatched_data,← htfeed]
      · rw [recved_append,recved_data,htrecved,List.map_cons,List.singleton_append]

end Refinement

end FpgaTest.CommandServer
