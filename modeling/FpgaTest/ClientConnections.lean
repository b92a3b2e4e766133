import FpgaTest.CommandServer
import Mathlib.Data.Finset.Insert

/-!
# Connections of the command server

The callbacks of the server composed with what lwIP does with connection
blocks. A block is live from its accept until the server closes or aborts it
or lwIP reports an error on it; a closed block stays with lwIP until the
closing handshake ends, and its error callback can still fire in that time.

Assumed of lwIP: a new connection has a block that is neither live nor
closing; data and the end of the stream are delivered only on live blocks,
since the close path unregisters the receive callback; the error callback
fires at most once for a block, after which the block is gone.

`err_callback` does not know which block failed. The client pointer and the
live set agree in every run in which it never fires for a closing block while
another client is connected, and only in those.
-/
namespace FpgaTest.ClientConnections
open BlockFraming CommandServer

structure World where
  server : Server
  live : Finset Pcb
  closing : Finset Pcb

def World.initial : World := ⟨.start,∅,∅⟩

inductive Event where
  | accept (newpcb : Pcb)
  | data (tpcb : Pcb) (p : Pbuf)
  | close (tpcb : Pcb)
  | err (pcb : Pcb)
  | freed (pcb : Pcb)

/-- What lwIP does with the blocks for a call made by a callback. -/
def World.apply (w : World) : Call → World
  | .tcpClose pcb => { w with live := w.live.erase pcb, closing := insert pcb w.closing }
  | .tcpAbort pcb => { w with live := w.live.erase pcb }
  | _ => w

def World.callback (w : World) (r : Server × List Call) : World × List Call :=
  (r.2.foldl World.apply { w with server := r.1 },r.2)

def step (w : World) : Event → Option (World × List Call)
  | .accept newpcb =>
      if newpcb ∈ w.live ∪ w.closing then none
      else
        let r := acceptCallback w.server newpcb
        some (World.callback { w with live := insert newpcb w.live } (r.1,r.2.1))
  | .data tpcb p =>
      if tpcb ∈ w.live then (recvCallback w.server tpcb (some p)).map w.callback else none
  | .close tpcb =>
      if tpcb ∈ w.live then (recvCallback w.server tpcb none).map w.callback else none
  | .err pcb =>
      if pcb ∈ w.live ∪ w.closing then
        some (⟨errCallback w.server,w.live.erase pcb,w.closing.erase pcb⟩,[])
      else none
  | .freed pcb =>
      if pcb ∈ w.closing then some ({ w with closing := w.closing.erase pcb },[]) else none

def run : World → List Event → Option (World × List Call) := EventMachine.run step

theorem apply_data (w : World) (tpcb : Pcb) (len : ℕ) (p : Pbuf) (msgs : List (List Byte)) :
    (.tcpRecved tpcb len :: .pbufFree p :: msgs.map (.dispatch tpcb)).foldl World.apply w = w := by
  simp only [List.foldl_cons,World.apply]
  induction msgs with
  | nil => rfl
  | cons m ms ih => simpa only [List.map_cons,List.foldl_cons,World.apply] using ih

section Cases
variable {w w' : World} {calls : List Call}

theorem step_accept_of_free {c : Pcb} (hclient : w.server.clientPcb = none)
    (hfresh : c ∉ w.live ∪ w.closing) :
    step w (.accept c) =
      some (⟨{ w.server with clientPcb := some c },insert c w.live,w.closing⟩,
        [.tcpRecv c true,.tcpErr c]) := by
  simp only [step,if_neg hfresh,acceptCallback,hclient,World.callback,List.foldl_cons,
    List.foldl_nil,World.apply]

theorem step_accept_free {c : Pcb} (hclient : w.server.clientPcb = none)
    (h : step w (.accept c) = some (w',calls)) :
    c ∉ w.live ∪ w.closing ∧
      w' = ⟨{ w.server with clientPcb := some c },insert c w.live,w.closing⟩ ∧
      calls = [.tcpRecv c true,.tcpErr c] := by
  have hfresh : c ∉ w.live ∪ w.closing := by
    intro hmem
    simp [step,hmem] at h
  rw [step_accept_of_free hclient hfresh,Option.some.injEq,Prod.mk.injEq] at h
  exact ⟨hfresh,h.1.symm,h.2.symm⟩

theorem step_accept_busy {c d : Pcb} (hclient : w.server.clientPcb = some d)
    (h : step w (.accept c) = some (w',calls)) : w' = w ∧ calls = [.tcpAbort c] := by
  simp only [step] at h
  split_ifs at h with hfresh
  simp only [acceptCallback,hclient,World.callback,List.foldl_cons,List.foldl_nil,World.apply,
    Option.some.injEq,Prod.mk.injEq] at h
  rw [Finset.mem_union,not_or] at hfresh
  rw [Finset.erase_insert hfresh.1] at h
  exact ⟨h.1.symm,h.2.symm⟩

theorem step_close {c : Pcb} (h : step w (.close c) = some (w',calls)) :
    c ∈ w.live ∧
      w' = ⟨{ w.server with clientPcb := none, recvLen := 0 },w.live.erase c,
        insert c w.closing⟩ ∧
      calls = [.tcpClose c,.tcpRecv c false] := by
  simp only [step] at h
  split_ifs at h with hlive
  simp only [recvCallback,Option.map_some,World.callback,List.foldl_cons,List.foldl_nil,
    World.apply,Option.some.injEq,Prod.mk.injEq] at h
  exact ⟨hlive,h.1.symm,h.2.symm⟩

theorem step_err {c : Pcb} (h : step w (.err c) = some (w',calls)) :
    c ∈ w.live ∪ w.closing ∧
      w' = ⟨errCallback w.server,w.live.erase c,w.closing.erase c⟩ ∧ calls = [] := by
  simp only [step] at h
  split_ifs at h with hmem
  simp only [Option.some.injEq,Prod.mk.injEq] at h
  exact ⟨hmem,h.1.symm,h.2.symm⟩

theorem step_freed {c : Pcb} (h : step w (.freed c) = some (w',calls)) :
    w' = { w with closing := w.closing.erase c } ∧ calls = [] := by
  simp only [step] at h
  split_ifs at h
  simp only [Option.some.injEq,Prod.mk.injEq] at h
  exact ⟨h.1.symm,h.2.symm⟩

theorem step_data_of_fits {c : Pcb} {p : Pbuf} (hlive : c ∈ w.live)
    (hlen : w.server.recvLen < messageSize) (hp : p.len ≤ bufferSize) :
    ∃ t, step w (.data c p) = some ({ w with server := t },
        .tcpRecved c p.len :: .pbufFree p ::
          (blocks messageSize (absorb bufferSize w.server.pending p.payload)).map (.dispatch c)) ∧
      t.clientPcb = w.server.clientPcb ∧ t.recvLen < messageSize ∧
      t.pending = residue messageSize (absorb bufferSize w.server.pending p.payload) := by
  obtain ⟨t,ht,hclient,htlen,htpend⟩ := recvCallback_data c (s := w.server) (p := p)
    (hlen.le.trans (by decide)) hp
  refine ⟨t,?_,hclient,?_,htpend⟩
  · simp only [step,if_pos hlive,ht,Option.map_some,World.callback,apply_data]
  · rw [htlen]
    exact Nat.mod_lt _ (by decide)

theorem step_data {c : Pcb} {p : Pbuf} (hlen : w.server.recvLen < messageSize)
    (h : step w (.data c p) = some (w',calls)) :
    c ∈ w.live ∧ ∃ t, w' = { w with server := t } ∧
      calls = .tcpRecved c p.len :: .pbufFree p ::
        (blocks messageSize (absorb bufferSize w.server.pending p.payload)).map (.dispatch c) ∧
      t.clientPcb = w.server.clientPcb ∧ t.recvLen < messageSize ∧
      t.pending = residue messageSize (absorb bufferSize w.server.pending p.payload) := by
  have hlive : c ∈ w.live := by
    by_contra hmem
    simp [step,hmem] at h
  have hp : p.len ≤ bufferSize := by
    by_contra hlong
    simp [step,recvCallback_overrun c (show bufferSize < p.len by omega)] at h
  obtain ⟨t,ht,hspec⟩ := step_data_of_fits hlive hlen hp
  rw [ht,Option.some.injEq,Prod.mk.injEq] at h
  exact ⟨hlive,t,h.1.symm,h.2.symm,hspec⟩

end Cases

/-- The live connections are exactly the recorded client. -/
def SingleClient (w : World) : Prop :=
  (w.live = ∅ ∧ w.server.clientPcb = none) ∨
    ∃ c, w.server.clientPcb = some c ∧ w.live = {c}

/-- An error event concerns the client, or no client is connected. -/
def ErrOfClient (w : World) (pcb : Pcb) : Prop :=
  w.server.clientPcb = none ∨ w.server.clientPcb = some pcb

theorem singleClient_initial : SingleClient .initial := .inl ⟨rfl,rfl⟩

theorem recvLen_lt_step {w w' : World} {e : Event} {calls : List Call}
    (hlen : w.server.recvLen < messageSize) (h : step w e = some (w',calls)) :
    w'.server.recvLen < messageSize := by
  cases e with
  | accept c =>
      cases hclient : w.server.clientPcb with
      | none =>
          obtain ⟨-,rfl,-⟩ := step_accept_free hclient h
          exact hlen
      | some d =>
          obtain ⟨rfl,-⟩ := step_accept_busy hclient h
          exact hlen
  | data c p =>
      obtain ⟨-,t,rfl,-,-,htlen,-⟩ := step_data hlen h
      exact htlen
  | close c =>
      obtain ⟨-,rfl,-⟩ := step_close h
      exact Nat.zero_lt_of_lt hlen
  | err c =>
      obtain ⟨-,rfl,-⟩ := step_err h
      exact hlen
  | freed c =>
      obtain ⟨rfl,-⟩ := step_freed h
      exact hlen

/-- Every event keeps the live set equal to the client, provided an error
event concerns the client. -/
theorem singleClient_step {w w' : World} {e : Event} {calls : List Call}
    (hlen : w.server.recvLen < messageSize) (h : SingleClient w)
    (herr : ∀ c, e = .err c → ErrOfClient w c) (hstep : step w e = some (w',calls)) :
    SingleClient w' := by
  cases e with
  | accept c =>
      rcases h with ⟨hlive,hclient⟩ | ⟨d,hclient,hlive⟩
      · obtain ⟨-,rfl,-⟩ := step_accept_free hclient hstep
        exact .inr ⟨c,rfl,by simp [hlive]⟩
      · obtain ⟨rfl,-⟩ := step_accept_busy hclient hstep
        exact .inr ⟨d,hclient,hlive⟩
  | data c p =>
      obtain ⟨-,t,rfl,-,hclient,-⟩ := step_data hlen hstep
      unfold SingleClient
      rw [hclient]
      exact h
  | close c =>
      obtain ⟨hmem,rfl,-⟩ := step_close hstep
      rcases h with ⟨hlive,-⟩ | ⟨d,-,hlive⟩
      · simp [hlive] at hmem
      · obtain rfl : c = d := by simpa [hlive] using hmem
        exact .inl ⟨by simp [hlive],rfl⟩
  | err c =>
      obtain ⟨-,rfl,-⟩ := step_err hstep
      refine .inl ⟨?_,rfl⟩
      rcases h with ⟨hlive,-⟩ | ⟨d,hclient,hlive⟩
      · simp [hlive]
      · have hc : d = c := by simpa [ErrOfClient,hclient] using herr c rfl
        simp [hlive,hc]
  | freed c =>
      obtain ⟨rfl,-⟩ := step_freed hstep
      exact h

theorem not_singleClient_err {w w' : World} {c : Pcb} {calls : List Call}
    (h : SingleClient w) (herr : ¬ ErrOfClient w c) (hstep : step w (.err c) = some (w',calls)) :
    ¬ SingleClient w' := by
  obtain ⟨-,rfl,-⟩ := step_err hstep
  rcases h with ⟨-,hclient⟩ | ⟨d,hclient,hlive⟩
  · exact absurd (.inl hclient) herr
  · have hne : c ≠ d := by
      rintro rfl
      exact herr (.inr hclient)
    rintro (⟨hempty,-⟩ | ⟨x,hx,-⟩)
    · simp [hlive,Finset.erase_eq_of_notMem,hne] at hempty
    · simp [errCallback] at hx

theorem recvLen_lt_run {w w' : World} {es : List Event} {calls : List Call}
    (hlen : w.server.recvLen < messageSize) (h : run w es = some (w',calls)) :
    w'.server.recvLen < messageSize := by
  induction es generalizing w calls with
  | nil =>
      obtain ⟨rfl,-⟩ : w = w' ∧ [] = calls := by simpa [run,EventMachine.run] using h
      exact hlen
  | cons e es ih =>
      obtain ⟨u,a,b,hstep,hrest,-⟩ := EventMachine.run_cons_iff.mp h
      exact ih (recvLen_lt_step hlen hstep) hrest

/-- Every state reached is single-client if and only if no error callback ever
fires for a closing block while another client is connected. -/
theorem single_client_iff (es : List Event) (w : World) (calls : List Call)
    (hrun : run .initial es = some (w,calls)) :
    (∀ before u a, before <+: es → run .initial before = some (u,a) → SingleClient u) ↔
      ∀ before pcb u a, before ++ [.err pcb] <+: es → run .initial before = some (u,a) →
        ErrOfClient u pcb := by
  constructor
  · intro hall before pcb u a hpre hbefore
    by_contra herr
    obtain ⟨after,rfl⟩ := hpre
    obtain ⟨v,b,-,hv,-,-⟩ := EventMachine.run_append_iff.mp hrun
    obtain ⟨u',a',c,hb,hstep,-⟩ := EventMachine.run_concat_iff.mp hv
    obtain ⟨rfl,-⟩ : u = u' ∧ _ := by simpa using hbefore.symm.trans hb
    have hu := hall before u a ⟨[.err pcb] ++ after,by rw [List.append_assoc]⟩ hbefore
    exact not_singleClient_err hu herr hstep (hall _ v b ⟨after,rfl⟩ hv)
  · intro herr before
    induction before using List.reverseRecOn with
    | nil =>
        intro u a _ hu
        obtain ⟨rfl,-⟩ : World.initial = u ∧ _ := by simpa [run,EventMachine.run] using hu
        exact singleClient_initial
    | append_singleton before e ih =>
        intro u a hpre hu
        obtain ⟨v,b,c,hb,hstep,-⟩ := EventMachine.run_concat_iff.mp hu
        have hv := ih v b ((List.prefix_append _ _).trans hpre) hb
        apply singleClient_step (recvLen_lt_run (by decide) hb) hv _ hstep
        rintro x rfl
        exact herr before x v b hpre hb

/-- One connection that the peer closes and that then times out. -/
def oneConnection : List Event := [.accept 1,.close 1,.err 1]

theorem single_client_oneConnection :
    ∃ w calls, run .initial oneConnection = some (w,calls) ∧
      ((∀ before u a, before <+: oneConnection → run .initial before = some (u,a) →
          SingleClient u) ↔
        ∀ before pcb u a, before ++ [.err pcb] <+: oneConnection →
          run .initial before = some (u,a) → ErrOfClient u pcb) :=
  ⟨_,_,rfl,single_client_iff oneConnection _ _ rfl⟩

/-- The first connection is closed, a second one is accepted, and then the
closing block of the first times out: the second stays connected while the
client pointer is NULL, and a third connection is accepted beside it. -/
def staleError : List Event := [.accept 1,.close 1,.accept 2,.err 1,.accept 3]

theorem stale_error_two_clients :
    ∃ w calls, run .initial staleError = some (w,calls) ∧ w.live = {2,3} ∧
      w.server.clientPcb = some 3 ∧ ¬ SingleClient w := by
  refine ⟨_,_,rfl,by decide,rfl,?_⟩
  rintro (⟨hempty,-⟩ | ⟨c,-,hlive⟩)
  · exact absurd hempty (by decide)
  · have h2 : 2 ∈ ({c} : Finset Pcb) := hlive ▸ (by decide)
    have h3 : 3 ∈ ({c} : Finset Pcb) := hlive ▸ (by decide)
    rw [Finset.mem_singleton] at h2 h3
    exact absurd (h2.trans h3.symm) (by decide)

end FpgaTest.ClientConnections
