import FpgaTest.XdmaEngine
import FpgaTest.XdmaSubmit

/-!
# What the engine leaves in memory

The outputs of the engine say which descriptors it has executed; the copies of
these descriptors are what it has done to the target memory. Of a transfer that
had an error or was cut short, any part of the chain may have been carried out
besides. With the history of the queue this gives the memory behind a run, and
a caller that waits for each of its transfers finds the engine as the submission
of a request assumes it.
-/
namespace FpgaTest.XdmaEffect
open ByteCopies XdmaRequest XdmaTransfer XdmaSubmit
open XdmaEngine (Ip Out Transfer TransferState Entry Event Stopped Inv calmStep attempt descs)

inductive Effect (chain : ℕ → List Copy) (source : Memory) : Memory → List Out → Memory → Prop
  | nil (m : Memory) : Effect chain source m [] m
  | desc {m m' : Memory} {id k : ℕ} {outs : List Out} {copy : Copy} :
      (chain id)[k]? = some copy → Effect chain source (copyAll source m copy.bytes) outs m' →
      Effect chain source m (.desc id k::outs) m'
  | fault {m u m' : Memory} {id : ℕ} {outs : List Out} :
      AgreeOff (· ∈ targets (chain id)) m u → Effect chain source u outs m' →
      Effect chain source m (.fault id::outs) m'
  | completed {m m' : Memory} {id : ℕ} {outs : List Out} : Effect chain source m outs m' →
      Effect chain source m (.done id .completed::outs) m'
  | cut {m u m' : Memory} {id : ℕ} {state : TransferState} {outs : List Out} :
      state ≠ .completed → AgreeOff (· ∈ targets (chain id)) m u → Effect chain source u outs m' →
      Effect chain source m (.done id state::outs) m'

/-- The transfer that an output is about. -/
def about : Out → ℕ
  | .desc id _ => id
  | .fault id => id
  | .done id _ => id

section Effects
variable {chain : ℕ → List Copy} {source m m' : Memory}

theorem Effect.append {xs ys : List Out} (h : Effect chain source m (xs++ys) m') :
    ∃ u, Effect chain source m xs u ∧ Effect chain source u ys m' := by
  induction xs generalizing m with
  | nil => exact ⟨m,.nil m,h⟩
  | cons x xs ih =>
      cases h with
      | desc hk hrest =>
          rcases ih hrest with ⟨u,hu,hys⟩
          exact ⟨u,.desc hk hu,hys⟩
      | fault hagree hrest =>
          rcases ih hrest with ⟨u,hu,hys⟩
          exact ⟨u,.fault hagree hu,hys⟩
      | completed hrest =>
          rcases ih hrest with ⟨u,hu,hys⟩
          exact ⟨u,.completed hu,hys⟩
      | cut hstate hagree hrest =>
          rcases ih hrest with ⟨u,hu,hys⟩
          exact ⟨u,.cut hstate hagree hu,hys⟩

/-- The descriptors of a chain, from the first one on. -/
theorem Effect.descs {id k : ℕ} (h : Effect chain source m (descs id k) m') :
    m' = copyAll source m (bytes ((chain id).take k)) := by
  induction k generalizing m' with
  | zero =>
      cases h
      rfl
  | succ k ih =>
      have hsplit : XdmaEngine.descs id (k+1) = XdmaEngine.descs id k ++ [.desc id k] := by
        simp [XdmaEngine.descs,List.range_succ]
      rw [hsplit] at h
      rcases h.append with ⟨u,hu,hlast⟩
      cases hlast with
      | desc hk hnil =>
          cases hnil
          rw [ih hu]
          rw [List.take_add_one,hk,Option.toList_some,bytes_append,copyAll_append]
          simp [bytes]

theorem targets_copy {cs : List Copy} {copy : Copy} (h : copy ∈ cs) :
    ∀ a ∈ copy.bytes.map Prod.snd, a ∈ targets cs := by
  intro a ha
  rcases List.mem_map.mp ha with ⟨p,hp,rfl⟩
  exact List.mem_map.mpr ⟨p,List.mem_flatMap.mpr ⟨copy,h,hp⟩,rfl⟩

/-- Only targets of the transfers that the outputs are about can change. -/
theorem Effect.outside {outs : List Out} (h : Effect chain source m outs m') {a : BitVec 64}
    (ha : ∀ o ∈ outs, a ∉ targets (chain (about o))) : m' a = m a := by
  induction h with
  | nil => rfl
  | desc hk _ ih =>
      rw [ih fun o ho => ha o (List.mem_cons_of_mem _ ho)]
      exact copyAll_outside _ _ (mt (targets_copy (List.mem_of_getElem? hk) a)
        (ha _ List.mem_cons_self))
  | fault hagree _ ih =>
      rw [ih fun o ho => ha o (List.mem_cons_of_mem _ ho)]
      exact hagree a (ha _ List.mem_cons_self)
  | completed _ ih => exact ih fun o ho => ha o (List.mem_cons_of_mem _ ho)
  | cut _ hagree _ ih =>
      rw [ih fun o ho => ha o (List.mem_cons_of_mem _ ho)]
      exact hagree a (ha _ List.mem_cons_self)

theorem about_attempt {id lost k : ℕ} {faulted : Bool} {o : Out}
    (h : o ∈ XdmaEngine.attempt id lost k faulted) : about o = id := by
  rw [XdmaEngine.attempt,List.mem_append,List.mem_append] at h
  rcases h with (h | h) | h
  · rw [(List.mem_replicate.mp h).2]
    rfl
  · rcases List.mem_map.mp h with ⟨i,-,rfl⟩
    rfl
  · split_ifs at h
    · rw [List.mem_singleton.mp h]
      rfl
    · exact absurd h List.not_mem_nil

theorem about_outs {e : Entry} {o : Out} (h : o ∈ e.outs) : about o = e.transfer.id := by
  rcases List.mem_append.mp h with h | h
  · exact about_attempt h
  · rw [List.mem_singleton.mp h]
    rfl

theorem Effect.attempt {id lost k : ℕ} (h : Effect chain source m (attempt id lost k false) m') :
    ∃ u, AgreeOff (· ∈ targets (chain id)) m u ∧
      m' = copyAll source u (bytes ((chain id).take k)) := by
  rw [XdmaEngine.attempt,if_neg Bool.false_ne_true,List.append_nil] at h
  rcases h.append with ⟨u,hlost,hdescs⟩
  refine ⟨u,?_,hdescs.descs⟩
  clear h hdescs
  induction lost generalizing m with
  | zero =>
      cases hlost
      exact .refl _ _
  | succ lost ih =>
      cases hlost with
      | fault hone hmore => exact hone.trans (ih hmore)

/-- A completed transfer has made all copies of its chain, also if it had to be
started again; another one has changed nothing but its targets. -/
theorem Effect.entry {pollMode : Bool} {e : Entry}
    (h : Effect chain source m e.outs m') (hsound : e.Sound pollMode)
    (hlength : (chain e.transfer.id).length ≤ e.transfer.descNum.toNat) :
    if e.state = .completed then m' = copyAll source m (bytes (chain e.transfer.id))
    else AgreeOff (· ∈ targets (chain e.transfer.id)) m m' := by
  have hagree : AgreeOff (· ∈ targets (chain e.transfer.id)) m m' := fun a ha =>
    h.outside fun o ho => by rwa [about_outs ho]
  rcases e with ⟨t,lost,executed,faulted,state⟩
  rcases h.append with ⟨u,hattempt,hdone⟩
  cases hdone with
  | completed hnil =>
      cases hnil
      rcases hsound with ⟨-,hall,hclean⟩
      simp only at hall hclean
      subst hall hclean
      rcases hattempt.attempt with ⟨v,hv,hend⟩
      rw [if_pos rfl,hend,List.take_of_length_le hlength]
      exact hv.copyAll_eq
  | cut hstate =>
      rw [if_neg hstate]
      exact hagree

theorem exists_effect (source m : Memory) {outs : List Out}
    (h : ∀ id k, .desc id k ∈ outs → k < (chain id).length) :
    ∃ m', Effect chain source m outs m' := by
  induction outs generalizing m with
  | nil => exact ⟨m,.nil m⟩
  | cons o outs ih =>
      have hrest := fun m => ih m fun id k hk => h id k (List.mem_cons_of_mem _ hk)
      cases o with
      | desc id k =>
          have hk := h id k List.mem_cons_self
          rcases hrest (copyAll source m ((chain id)[k]).bytes) with ⟨m',hm'⟩
          exact ⟨m',.desc (List.getElem?_eq_getElem hk) hm'⟩
      | fault id =>
          rcases hrest m with ⟨m',hm'⟩
          exact ⟨m',.fault (.refl _ _) hm'⟩
      | done id state =>
          rcases hrest m with ⟨m',hm'⟩
          by_cases hstate : state = .completed
          · subst hstate
            exact ⟨m',.completed hm'⟩
          · exact ⟨m',.cut hstate (.refl _ _) hm'⟩

end Effects

/-- The engine is stopped and has nothing to do. -/
structure Idle (s : XdmaEngine.State) : Prop where
  stopped : Stopped s []
  empty : s.engine.transferList = []

/-- A transfer is queued, and its caller waits until it has left the queue; all
the while nothing else is queued. -/
structure Waits [Ip] (pollMode : Bool) (t : Transfer) (s s' : XdmaEngine.State) (outs : List Out) :
    Prop where
  run : ∃ es, (∀ e ∈ es, ∀ u, e ≠ Event.queue u) ∧
    EventMachine.run (calmStep pollMode) s (.queue t::es) = some (s',outs)
  left : s'.engine.transferList = []

section Idle
variable {pollMode : Bool} {s : XdmaEngine.State}

theorem Idle.inv (h : Idle s) : Inv pollMode s [] :=
  ⟨fun _ ht => absurd (h.empty ▸ ht) List.not_mem_nil,fun _ => h.stopped.word,.inl h.stopped⟩

theorem idle_of_inv {tail : List Out} (h : Inv pollMode s tail)
    (hempty : s.engine.transferList = []) :
    tail = [] ∧ Idle s := by
  rcases h.engine with hs | ⟨_,_,hr⟩
  · rcases hs.tail with rfl | ⟨t,rest,lost,hlist,-⟩
    · exact ⟨rfl,hs,hempty⟩
    · rw [hempty] at hlist
      contradiction
  · have hlist := hr.list
    rw [hempty] at hlist
    contradiction

theorem queuedBy_waiting {es : List Event} (h : ∀ e ∈ es, ∀ u, e ≠ Event.queue u) :
    es.flatMap XdmaEngine.queuedBy = [] := by
  rw [List.flatMap_eq_nil_iff]
  intro e he
  cases e with
  | queue u => exact absurd rfl (h _ he u)
  | _ => rfl

theorem reports_attempt (id lost k : ℕ) (faulted : Bool) :
    XdmaEngine.reports (attempt id lost k faulted) = [] := by
  rw [XdmaEngine.reports,List.filterMap_eq_nil_iff]
  intro o ho
  cases o with
  | done id state => cases faulted <;> simp [attempt,descs,List.mem_replicate] at ho
  | _ => rfl

theorem reports_outs (e : Entry) : XdmaEngine.reports e.outs = [(e.transfer.id,e.state)] := by
  rw [Entry.outs,XdmaEngine.reports_append,reports_attempt]
  rfl

end Idle

section Waiting
variable [Ip] {pollMode : Bool} {t : Transfer} {s s' : XdmaEngine.State} {outs : List Out}

theorem Waits.entry (h : Waits pollMode t s s' outs) (hidle : Idle s) (ht : t.descNum ≠ 0) :
    Idle s' ∧ ∃ e : Entry, e.Sound pollMode ∧ e.transfer = t ∧ outs = e.outs := by
  rcases h.run with ⟨es,hes,hrun⟩
  rcases XdmaEngine.run_history hidle.inv hrun with ⟨history,tail,hsound,houts,hinv,hfifo⟩
  rcases idle_of_inv hinv h.left with ⟨rfl,hidle'⟩
  rw [hidle.empty,h.left,List.flatMap_cons,queuedBy_waiting hes,XdmaEngine.queuedBy,if_neg ht,
    List.append_nil,List.append_nil,List.nil_append,List.map_eq_singleton_iff] at hfifo
  rcases hfifo with ⟨e,rfl,he⟩
  refine ⟨hidle',e,hsound e List.mem_cons_self,he,?_⟩
  simpa using houts

end Waiting

/-- A built transfer that the engine has finished with the given state. -/
structure Executes [Ip] {c : Channel} (pollMode : Bool) (source : Memory) (e : Engine c) (x : Xfer)
    (state : TransferState) (s : XdmaEngine.State) (target : Memory) (s' : XdmaEngine.State)
    (target' : Memory) : Prop where
  run : ∃ t outs, t.descNum.toNat = x.descNum ∧ Waits pollMode t s s' outs ∧
    (t.id,state) ∈ XdmaEngine.reports outs ∧
    ∀ cs, Chain e.fetch x.descBus cs → Effect (fun _ => cs) source target outs target'

/-- The loop of `xdma_xfer_submit` on a real engine: the caller goes by the state in
which it finds the transfer. -/
inductive SubmitRun [Ip] {c : Channel} (pollMode : Bool) (source : Memory) : XdmaEngine.State →
    Engine c → Request → Memory → ℕ → XdmaEngine.State → Submitted c → Prop
  | finished {s : XdmaEngine.State} {e : Engine c} {req : Request} {target : Memory} {done : ℕ} :
      req.sdesc.length ≤ req.swDescIdx →
      SubmitRun pollMode source s e req target done s ⟨e,target,finish done 0⟩
  | completed {s u s' : XdmaEngine.State} {e : Engine c} {req : Request} {target mid : Memory}
      {done : ℕ} {r : Submitted c} : req.swDescIdx < req.sdesc.length →
      Executes pollMode source (transferInit e req).1 (transferInit e req).2.2 .completed s target
        u mid →
      SubmitRun pollMode source u (transferDestroy (transferInit e req).1 (transferInit e req).2.2)
        (transferInit e req).2.1 mid (done + (transferInit e req).2.2.len) s' r →
      SubmitRun pollMode source s e req target done s' r
  | failed {s s' : XdmaEngine.State} {e : Engine c} {req : Request} {target target' : Memory}
      {done : ℕ} : req.swDescIdx < req.sdesc.length →
      Executes pollMode source (transferInit e req).1 (transferInit e req).2.2 .failed s target
        s' target' →
      SubmitRun pollMode source s e req target done s'
        ⟨transferDestroy (transferInit e req).1 (transferInit e req).2.2,target',
          finish done (-eio)⟩
  | timedOut {s s' : XdmaEngine.State} {e : Engine c} {req : Request} {target target' : Memory}
      {done : ℕ} : req.swDescIdx < req.sdesc.length →
      Executes pollMode source (transferInit e req).1 (transferInit e req).2.2 .aborted s target
        s' target' →
      SubmitRun pollMode source s e req target done s'
        ⟨transferDestroy (transferInit e req).1 (transferInit e req).2.2,target',
          finish done (-erestartsys)⟩
  | refused {s : XdmaEngine.State} {e : Engine c} {req : Request} {target : Memory} {done : ℕ} :
      req.swDescIdx < req.sdesc.length →
      SubmitRun pollMode source s e req target done s
        ⟨(transferInit e req).1,target,finish done (-ebusy)⟩

section Submit
variable [Ip] {c : Channel} {pollMode : Bool} {source target target' : Memory}
  {s s' : XdmaEngine.State} {e : Engine c} {req : Request} {state : TransferState}

/-- The engine has found the chain of the transfer. -/
theorem Executes.spec (hlen : ∀ x ∈ req.sdesc, x.len < 2^32)
    (h : req.swDescIdx < req.sdesc.length) (hidle : Idle s)
    (hexec : Executes pollMode source (transferInit e req).1 (transferInit e req).2.2 state s
      target s' target') :
    Idle s' ∧ if state = .completed then
        target' = copyAll source target (bytes (copies c req.epAddr (taken e req)))
      else AgreeOff (· ∈ targets (copies c req.epAddr (taken e req))) target target' := by
  rcases hexec.run with ⟨t,outs,hnum,hwaits,hreport,heffect⟩
  have hcount : t.descNum.toNat = descCount e req := hnum
  have hpos := descCount_pos e h
  have ht : t.descNum ≠ 0 := by
    intro hz
    rw [hz] at hcount
    exact absurd hcount.symm hpos.ne'
  rcases hwaits.entry hidle ht with ⟨hidle',entry,hsound,rfl,rfl⟩
  rw [reports_outs,List.mem_singleton,Prod.mk.injEq] at hreport
  have hlength : (copies c req.epAddr (taken e req)).length ≤ entry.transfer.descNum.toNat := by
    rw [length_copies,length_taken,hcount]
  have hentry := (heffect _ (transferInit_chain hlen h)).entry hsound hlength
  rw [hreport.2]
  exact ⟨hidle',hentry⟩

/-- Every run of the loop that begins with an idle engine. -/
theorem SubmitRun.made {done : ℕ} {r : Submitted c} (hlen : ∀ x ∈ req.sdesc, x.len < 2^32)
    (hidle : Idle s) (hfit : done + remaining req < 2^32)
    (h : SubmitRun pollMode source s e req target done s' r) :
    Idle s' ∧ Made (copies c req.epAddr (req.sdesc.drop req.swDescIdx)) source target r.memory
      done r.rv := by
  induction h with
  | finished hdone => exact ⟨hidle,made_finished source _ _ hdone _⟩
  | completed hmore hexec hrest ih =>
      rcases hexec.spec hlen hmore hidle with ⟨hidle',hmid⟩
      rw [if_pos rfl] at hmid
      subst hmid
      rcases ih hlen hidle' (by rwa [remaining_completed _ hfit]) with ⟨hend,hmade⟩
      exact ⟨hend,made_completed hfit hmade⟩
  | failed hmore hexec =>
      rcases hexec.spec hlen hmore hidle with ⟨hidle',hagree⟩
      exact ⟨hidle',made_part hmore hagree (Or.inl rfl)⟩
  | timedOut hmore hexec =>
      rcases hexec.spec hlen hmore hidle with ⟨hidle',hagree⟩
      exact ⟨hidle',made_part hmore hagree (Or.inr (Or.inl rfl))⟩
  | @refused s e req target done hmore =>
      exact ⟨hidle,made_part (e := e) hmore (fun _ _ => rfl) (Or.inr (Or.inr rfl))⟩

end Submit

section Init
variable {descBlenMax : ℕ} [NeZero descBlenMax] {sgl : List Sg} {epAddr : BitVec 64}
  {req : Request}

theorem len_init (hmax : descBlenMax < 2^32) (h : initRequest descBlenMax sgl epAddr = some req) :
    ∀ x ∈ req.sdesc, x.len < 2^32 := by
  rw [initRequest_some h]
  exact fun x hx => lt_of_le_of_lt (pieces_len sgl x hx).2 hmax

end Init

/-- A ring of two descriptors, forty bytes in two entries. -/
def smallRing : Channel := ⟨0x1000,2,.toDevice,false,by decide,by decide⟩

def smallEngine : Engine smallRing := ⟨fun _ => ⟨0,0,0,0,0,0,0,0⟩,⟨1,by decide⟩,0⟩

def twoEntries : List Sg := [⟨0x9ff0,16⟩,⟨0xc000,24⟩]

section Calls
variable {c : Channel} {descBlenMax : ℕ} [NeZero descBlenMax] {sgl : List Sg}
  {epAddr : BitVec 64} {req : Request}

local instance : Ip := .immediate

end Calls

end FpgaTest.XdmaEffect
