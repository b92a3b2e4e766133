import FpgaTest.ClientConnections
import FpgaTest.StreamDelivery

/-!
# What one session can see of earlier ones

The receive buffer and its fill level are shared by all connections. A session
runs from an admitted accept for as long as the accepted connection is the
recorded client. The orderly close empties the buffer; `err_callback` does
not, and it also leaves a second connection open when it fires for a block
that was already closing.

A session that starts with an empty buffer and no other open connection
dispatches what its own bytes contain and nothing else. Both conditions are
about the state in which the connection is accepted.
-/
namespace FpgaTest.SessionIsolation
open BlockFraming CommandServer StreamDelivery ClientConnections

/-- The segments that arrive on one connection. -/
def received (c : Pcb) (events : List Event) : List Pbuf :=
  events.filterMap fun
    | .data tpcb p => if tpcb = c then some p else none
    | _ => none

/-- `body` is a run from `w` during which `c` is the recorded client. -/
structure Serving (w : World) (c : Pcb) (body : List Event) (calls : List Call) : Prop where
  runs : ∃ w', run w body = some (w',calls)
  client : ∀ before e after, body = before ++ e::after →
    ∀ u a, run w before = some (u,a) → u.server.clientPcb = some c

/-- A session: `c` is admitted in the reachable state `w`, and `body` happens
while it is the client. -/
structure Session (w : World) (c : Pcb) (body : List Event) (calls : List Call) : Prop where
  reachable : ∃ before a, run .initial before = some (w,a)
  admitted : w.server.clientPcb = none
  serving : ∃ u a, step w (.accept c) = some (u,a) ∧ Serving u c body calls

theorem Serving.tail {w u : World} {c : Pcb} {e : Event} {body : List Event}
    {calls a : List Call} (h : Serving w c (e::body) calls) (hstep : step w e = some (u,a)) :
    ∃ b, calls = a ++ b ∧ Serving u c body b := by
  obtain ⟨w',hrun⟩ := h.runs
  obtain ⟨u',a',b,hstep',hrest,rfl⟩ := EventMachine.run_cons_iff.mp hrun
  obtain ⟨rfl,rfl⟩ : u = u' ∧ a = a' := by simpa using hstep.symm.trans hstep'
  refine ⟨b,rfl,⟨w',hrest⟩,?_⟩
  rintro before e' after rfl v d hv
  exact h.client (e::before) e' after rfl v _ (EventMachine.run_cons_iff.mpr ⟨u,a,d,hstep,hv,rfl⟩)

theorem Serving.ended {w : World} {c : Pcb} {body : List Event} {calls : List Call}
    (h : Serving w c body calls) (hclient : w.server.clientPcb = none) :
    body = [] ∧ calls = [] := by
  cases body with
  | nil =>
      obtain ⟨w',hrun⟩ := h.runs
      obtain ⟨-,rfl⟩ : w = w' ∧ [] = calls := by simpa [run,EventMachine.run] using hrun
      exact ⟨rfl,rfl⟩
  | cons e body =>
      have := h.client [] e body rfl w [] rfl
      rw [hclient] at this
      cases this

/-- While the client is the only open connection, the messages dispatched are
those of the framing receiver on the client's own segments. -/
theorem Serving.dispatched_eq {w : World} {c : Pcb} {body : List Event} {calls : List Call}
    (h : Serving w c body calls) (hlive : w.live = {c}) (hclient : w.server.clientPcb = some c)
    (hlen : w.server.recvLen < messageSize) :
    dispatched calls =
      (feed messageSize bufferSize w.server.pending ((received c body).map Pbuf.payload)).2 := by
  induction body generalizing w calls with
  | nil =>
      obtain ⟨w',hrun⟩ := h.runs
      obtain ⟨-,rfl⟩ : w = w' ∧ [] = calls := by simpa [run,EventMachine.run] using hrun
      rfl
  | cons e body ih =>
      obtain ⟨w',hrun⟩ := h.runs
      obtain ⟨u,a,-,hstep,-,-⟩ := EventMachine.run_cons_iff.mp hrun
      obtain ⟨b,rfl,hserve⟩ := h.tail hstep
      cases e with
      | accept d =>
          obtain ⟨rfl,rfl⟩ := step_accept_busy hclient hstep
          have hrest := ih hserve hlive hclient hlen
          rw [dispatched_append,hrest]
          rfl
      | data d p =>
          obtain ⟨hmem,t,rfl,rfl,htclient,htlen,htpend⟩ := step_data hlen hstep
          obtain rfl : d = c := by simpa [hlive] using hmem
          have hrest := ih hserve hlive (htclient.trans hclient) htlen
          rw [dispatched_append,dispatched_data,hrest,htpend]
          simp [received,feed]
      | close d =>
          obtain ⟨-,rfl,rfl⟩ := step_close hstep
          obtain ⟨rfl,rfl⟩ := hserve.ended rfl
          rfl
      | err d =>
          obtain ⟨-,rfl,rfl⟩ := step_err hstep
          obtain ⟨rfl,rfl⟩ := hserve.ended rfl
          rfl
      | freed d =>
          obtain ⟨rfl,rfl⟩ := step_freed hstep
          have hrest := ih hserve hlive hclient hlen
          rw [dispatched_append,hrest]
          rfl

/-- The state in which a connection is accepted holds nothing of an earlier
session. -/
def CleanEntry (w : World) : Prop := w.server.recvLen = 0 ∧ w.live = ∅

theorem Session.dispatched_eq {w : World} {c : Pcb} {body : List Event} {calls : List Call}
    (h : Session w c body calls) (hclean : CleanEntry w) :
    dispatched calls =
      (feed messageSize bufferSize [] ((received c body).map Pbuf.payload)).2 := by
  obtain ⟨u,a,hstep,hserve⟩ := h.serving
  obtain ⟨-,rfl,-⟩ := step_accept_free h.admitted hstep
  have hpend : w.server.pending = [] := pending_of_empty hclean.1
  have hrun := hserve.dispatched_eq (by simp [hclean.2]) rfl (by simp [hclean.1]; decide)
  rw [← hpend]
  exact hrun

/-- Where every error callback concerns the client and finds an empty buffer,
every state without a client is clean: no session leaves anything behind. -/
theorem cleanEntry_of_run {es : List Event} {w : World} {calls : List Call}
    (hrun : run .initial es = some (w,calls))
    (herr : ∀ before pcb u a, before ++ [.err pcb] <+: es → run .initial before = some (u,a) →
      ErrOfClient u pcb ∧ u.server.recvLen = 0)
    (hclient : w.server.clientPcb = none) : CleanEntry w := by
  suffices h : SingleClient w ∧ (w.server.clientPcb = none → w.server.recvLen = 0) by
    rcases h.1 with ⟨hlive,-⟩ | ⟨c,hc,-⟩
    · exact ⟨h.2 hclient,hlive⟩
    · rw [hclient] at hc
      cases hc
  clear hclient
  induction es using List.reverseRecOn generalizing w calls with
  | nil =>
      obtain ⟨rfl,-⟩ : World.initial = w ∧ _ := by simpa [run,EventMachine.run] using hrun
      exact ⟨singleClient_initial,fun _ => rfl⟩
  | append_singleton es e ih =>
      obtain ⟨v,b,c,hb,hstep,-⟩ := EventMachine.run_concat_iff.mp hrun
      have hlen := recvLen_lt_run (by decide) hb
      obtain ⟨hsingle,hempty⟩ := ih hb fun before pcb u a hpre =>
        herr before pcb u a (hpre.trans (List.prefix_append _ _))
      have hlast : ∀ x, e = .err x → ErrOfClient v x ∧ v.server.recvLen = 0 := by
        rintro x rfl
        exact herr es x v b (List.prefix_refl _) hb
      refine ⟨singleClient_step hlen hsingle (fun x hx => (hlast x hx).1) hstep,?_⟩
      intro hnone
      cases e with
      | accept c =>
          cases hc : v.server.clientPcb with
          | none =>
              obtain ⟨-,rfl,-⟩ := step_accept_free hc hstep
              cases hnone
          | some d =>
              obtain ⟨rfl,-⟩ := step_accept_busy hc hstep
              exact hempty hnone
      | data c p =>
          obtain ⟨hmem,t,rfl,-,htclient,-⟩ := step_data hlen hstep
          rw [htclient] at hnone
          rcases hsingle with ⟨hlive,-⟩ | ⟨d,hd,-⟩
          · simp [hlive] at hmem
          · rw [hnone] at hd
            cases hd
      | close c =>
          obtain ⟨-,rfl,-⟩ := step_close hstep
          rfl
      | err c =>
          obtain ⟨-,rfl,-⟩ := step_err hstep
          exact (hlast c rfl).2
      | freed c =>
          obtain ⟨rfl,-⟩ := step_freed hstep
          exact hempty hnone

/-- The two sessions received the same bytes: in the same segments, or cut
differently into plain segments that lose nothing to the overflow branch. -/
def SameBytes (ps qs : List Pbuf) : Prop :=
  ps = qs ∨ (stream ps = stream qs ∧
    ∀ rs ∈ [ps,qs], (∀ p ∈ rs, p.next = []) ∧
      LosslessCut messageSize bufferSize 0 ((rs.map Pbuf.payload).map List.length))

theorem feed_plain {ps : List Pbuf} (hplain : ∀ p ∈ ps, p.next = [])
    (hcut : LosslessCut messageSize bufferSize 0 ((ps.map Pbuf.payload).map List.length)) :
    (feed messageSize bufferSize [] (ps.map Pbuf.payload)).2 =
      blocks messageSize (stream ps) := by
  rw [feed_lossless (by decide) [] _ (by decide) hcut,List.nil_append,
    stream_of_plain fun p hp => by rw [hplain p hp,List.flatten_nil]]

/-- Two sessions that start clean and receive the same bytes dispatch the same
messages, whatever happened before each of them. -/
theorem sessions_isolated (w w' : World) (c c' : Pcb) (body body' : List Event)
    (calls calls' : List Call) (h : Session w c body calls) (h' : Session w' c' body' calls')
    (hclean : CleanEntry w) (hclean' : CleanEntry w')
    (hsame : SameBytes (received c body) (received c' body')) :
    dispatched calls = dispatched calls' := by
  rw [h.dispatched_eq hclean,h'.dispatched_eq hclean']
  rcases hsame with heq | ⟨hbytes,hcut⟩
  · rw [heq]
  · obtain ⟨hplain,hloss⟩ := hcut (received c body) (by simp)
    obtain ⟨hplain',hloss'⟩ := hcut (received c' body') (by simp)
    rw [feed_plain hplain hloss,feed_plain hplain' hloss',hbytes]

theorem run_first_segment {p : Pbuf} (hp : p.len ≤ bufferSize) :
    ∃ t a, run .initial [.accept 1,.data 1 p] = some (⟨t,{1},∅⟩,a) ∧
      t.recvLen < messageSize ∧
      t.pending = residue messageSize (absorb bufferSize [] p.payload) := by
  obtain ⟨t,ht,-,htlen,htpend⟩ := step_data_of_fits (c := 1) (p := p)
    (w := ⟨{ Server.start with clientPcb := some 1 },{1},∅⟩) (by decide) (by decide) hp
  have haccept : run .initial [.accept 1] =
      some (⟨{ Server.start with clientPcb := some 1 },{1},∅⟩,[.tcpRecv 1 true,.tcpErr 1]) := rfl
  exact ⟨t,_,EventMachine.run_concat haccept ht,htlen,htpend⟩

theorem session_one_segment {w : World} {c : Pcb} {p : Pbuf}
    (hreach : ∃ before a, run .initial before = some (w,a)) (hclient : w.server.clientPcb = none)
    (hlen : w.server.recvLen < messageSize) (hfresh : c ∉ w.live ∪ w.closing)
    (hp : p.len ≤ bufferSize) :
    ∃ calls, Session w c [.data c p] calls ∧
      dispatched calls = blocks messageSize (absorb bufferSize w.server.pending p.payload) := by
  have haccept := step_accept_of_free hclient hfresh
  obtain ⟨t,ht,-⟩ := step_data_of_fits (c := c) (p := p)
    (w := ⟨{ w.server with clientPcb := some c },insert c w.live,w.closing⟩)
    (Finset.mem_insert_self c w.live) hlen hp
  have hnil : run ⟨{ w.server with clientPcb := some c },insert c w.live,w.closing⟩ [] =
      some (⟨{ w.server with clientPcb := some c },insert c w.live,w.closing⟩,[]) := rfl
  refine ⟨_,⟨hreach,hclient,_,_,haccept,⟨_,EventMachine.run_concat hnil ht⟩,?_⟩,
    dispatched_data ..⟩
  intro before e after hbody v a hv
  obtain rfl : before = [] := by
    cases before with
    | nil => rfl
    | cons x xs => simp at hbody
  obtain ⟨rfl,-⟩ : _ = v ∧ _ := by simpa [run,EventMachine.run] using hv
  rfl

def partialSegment : Pbuf := segment (List.replicate 12 65)

def wholeMessage : Pbuf := segment (List.replicate 24 66)

/-- An orderly close after half a message: the next session is the same as on
a fresh server. -/
theorem sessions_isolated_after_close :
    ∃ w calls calls', Session w 2 [.data 2 wholeMessage] calls ∧
      Session .initial 2 [.data 2 wholeMessage] calls' ∧
      CleanEntry w ∧ dispatched calls = dispatched calls' := by
  obtain ⟨t,a,hrun,hlen,-⟩ := run_first_segment (p := partialSegment) (by decide)
  let w : World := ⟨{ t with clientPcb := none, recvLen := 0 },∅,{1}⟩
  have hreach : ∃ before b, run .initial before = some (w,b) :=
    ⟨_,_,EventMachine.run_concat hrun (show step _ (.close 1) = some (w,_) from rfl)⟩
  obtain ⟨calls,hs,-⟩ := session_one_segment (w := w) (c := 2) (p := wholeMessage) hreach rfl
    (show 0 < messageSize by decide) (show 2 ∉ (∅ ∪ {1} : Finset Pcb) by decide) (by decide)
  obtain ⟨calls',hs',-⟩ := session_one_segment (w := .initial) (c := 2) (p := wholeMessage)
    ⟨[],[],rfl⟩ rfl (by decide) (by decide) (by decide)
  exact ⟨w,calls,calls',hs,hs',⟨rfl,rfl⟩,
    sessions_isolated w .initial 2 2 _ _ calls calls' hs hs' ⟨rfl,rfl⟩ ⟨rfl,rfl⟩ (.inl rfl)⟩

/-- An abort after half a message: the same bytes on the next connection give
another message than on a fresh server. -/
theorem abort_leaks_partial_message :
    ∃ w calls calls', Session w 2 [.data 2 wholeMessage] calls ∧
      Session .initial 2 [.data 2 wholeMessage] calls' ∧
      dispatched calls ≠ dispatched calls' := by
  obtain ⟨t,a,hrun,hlen,hpend⟩ := run_first_segment (p := partialSegment) (by decide)
  let w : World := ⟨errCallback t,∅,∅⟩
  have hreach : ∃ before b, run .initial before = some (w,b) :=
    ⟨_,_,EventMachine.run_concat hrun (show step _ (.err 1) = some (w,_) from rfl)⟩
  obtain ⟨calls,hs,hmsgs⟩ := session_one_segment (w := w) (c := 2) (p := wholeMessage) hreach rfl
    hlen (by simp [w]) (by decide)
  obtain ⟨calls',hs',hmsgs'⟩ := session_one_segment (w := .initial) (c := 2) (p := wholeMessage)
    ⟨[],[],rfl⟩ rfl (by decide) (by decide) (by decide)
  refine ⟨w,calls,calls',hs,hs',?_⟩
  have hwpend : w.server.pending = List.replicate 12 65 := hpend.trans (by decide)
  rw [hmsgs,hmsgs',hwpend]
  decide

end FpgaTest.SessionIsolation
