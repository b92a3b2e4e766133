import FpgaTest.XdmaTransfer

/-!
# Submitting a request

`xdma_xfer_submit` hands a request to the engine one transfer at a time and
waits for each of them. A transfer may complete, fail, run into the timeout or
not be accepted; the first one that does not complete ends the call, and the
bytes of those before it are returned. The engine is known by what it does with
a chain that ends: a completed transfer has made the copies of its chain, and
no transfer writes anywhere else.
-/
namespace FpgaTest.XdmaSubmit
open ByteCopies XdmaRequest XdmaTransfer

abbrev Memory := BitVec 64 → BitVec 8

inductive Outcome where
  | completed | failed | timedOut | refused
  deriving DecidableEq, Repr

def bytes (cs : List Copy) : List (BitVec 64 × BitVec 64) := cs.flatMap Copy.bytes

def targets (cs : List Copy) : List (BitVec 64) := (bytes cs).map Prod.snd

/-- An engine between a source and a target memory. -/
structure Hardware (c : Channel) where
  run : Engine c → Xfer → Memory → Memory → Outcome × Memory
  copied : ∀ (e : Engine c) (x : Xfer) (source target : Memory) (cs : List Copy),
    Chain e.fetch x.descBus cs → (run e x source target).1 = .completed →
    (run e x source target).2 = copyAll source target (bytes cs)
  confined : ∀ (e : Engine c) (x : Xfer) (source target : Memory) (cs : List Copy),
    Chain e.fetch x.descBus cs → ∀ a ∉ targets cs, (run e x source target).2 a = target a

variable {c : Channel}

def eio : ℤ := 5
def enomem : ℤ := 12
def ebusy : ℤ := 16
def einval : ℤ := 22
def erestartsys : ℤ := 512

/-- The descriptors of a finished transfer are zeroed and given back. -/
def transferDestroy (e : Engine c) (x : Xfer) : Engine c :=
  { e with
    desc := fun s =>
      if x.descIndex ≤ s ∧ s < x.descIndex + x.descNum then ⟨0,0,0,0,0,0,0,0⟩ else e.desc s
    descUsed := e.descUsed - x.descNum }

structure Submitted (c : Channel) where
  engine : Engine c
  memory : Memory
  rv : ℤ

/-- Once some data is processed, the count is returned. -/
def finish (done : ℕ) (rv : ℤ) : ℤ := if done = 0 then rv else done

/-- The loop over the transfers. A transfer that is not accepted stays in the
ring. -/
def submitLoop (hw : Hardware c) (source : Memory) (e : Engine c) (req : Request)
    (target : Memory) (done : ℕ) : Submitted c :=
  if _h : req.swDescIdx < req.sdesc.length then
    let r := transferInit e req
    let o := hw.run r.1 r.2.2 source target
    match o.1 with
    | .completed =>
        submitLoop hw source (transferDestroy r.1 r.2.2) r.2.1 o.2 (done + r.2.2.len)
    | .failed => ⟨transferDestroy r.1 r.2.2,o.2,finish done (-eio)⟩
    | .timedOut => ⟨transferDestroy r.1 r.2.2,o.2,finish done (-erestartsys)⟩
    | .refused => ⟨r.1,o.2,finish done (-ebusy)⟩
  else ⟨e,target,finish done 0⟩
termination_by req.sdesc.length - req.swDescIdx
decreasing_by
  have hpos := descCount_pos e _h
  show req.sdesc.length - (req.swDescIdx + descCount e req) < _
  omega

/-- A scatter list, mapped for the device, moved to or from a device address. -/
def xdmaXferSubmit (descBlenMax : ℕ) [NeZero descBlenMax] (hw : Hardware c) (offline : Bool)
    (write : Bool) (e : Engine c) (epAddr : BitVec 64) (sgl : List Sg)
    (source target : Memory) : Submitted c :=
  if offline then ⟨e,target,-ebusy⟩
  else if c.dir ≠ (if write then .toDevice else .fromDevice) then ⟨e,target,-einval⟩
  else if sgl.length = 0 then ⟨e,target,-eio⟩
  else
    match initRequest descBlenMax sgl epAddr with
    | none => ⟨e,target,-enomem⟩
    | some req => submitLoop hw source e req target 0

theorem bytes_append (cs ds : List Copy) : bytes (cs++ds) = bytes cs ++ bytes ds :=
  List.flatMap_append

theorem drop_taken (e : Engine c) (req : Request) :
    req.sdesc.drop req.swDescIdx =
      taken e req ++ req.sdesc.drop (req.swDescIdx + descCount e req) := by
  rw [taken,← List.drop_drop,List.take_append_drop]

theorem transferInit_epAddr (e : Engine c) (req : Request) :
    (transferInit e req).2.1.epAddr = c.advanceAll req.epAddr (taken e req) :=
  transferBuild_epAddr _ _ _ _ _

theorem transferInit_len (e : Engine c) (req : Request) :
    (transferInit e req).2.2.len = ((taken e req).map SwDesc.len).sum % 2^32 := by
  have h := transferBuild_len (c := c) (taken e req)
    (transferDescInit e.desc e.descIdx (c.bus e.descIdx) (descCount e req)) e.descIdx
    req.epAddr 0 (by norm_num)
  rw [Nat.zero_add] at h
  exact h

theorem copies_transferInit (e : Engine c) (req : Request) :
    copies c req.epAddr (req.sdesc.drop req.swDescIdx) =
      copies c req.epAddr (taken e req) ++
        copies c (transferInit e req).2.1.epAddr
          ((transferInit e req).2.1.sdesc.drop (transferInit e req).2.1.swDescIdx) := by
  rw [transferInit_epAddr,drop_taken e req,copies_append]
  rfl

/-- The bytes left to do. -/
def remaining (req : Request) : ℕ :=
  ((req.sdesc.drop req.swDescIdx).map SwDesc.len).sum

theorem remaining_transferInit (e : Engine c) (req : Request) :
    remaining req =
      ((taken e req).map SwDesc.len).sum + remaining (transferInit e req).2.1 := by
  rw [remaining,drop_taken e req,List.map_append,List.sum_append]
  rfl

/-- How a call that has copied `done` of its bytes and left `left` to do ends. -/
inductive Ends (done : ℕ) : List Copy → ℤ → Prop
  | whole : Ends done [] done
  | part {left : List Copy} (rv : ℤ) : left ≠ [] → rv = eio ∨ rv = erestartsys ∨ rv = ebusy →
      Ends done left (finish done (-rv))

def total (cs : List Copy) : ℕ := (cs.map Copy.len).sum

theorem total_copies (epAddr : BitVec 64) (ss : List SwDesc) :
    total (copies c epAddr ss) = (ss.map SwDesc.len).sum := by
  induction ss generalizing epAddr with
  | nil => rfl
  | cons s ss ih =>
      have hlen : (copyOf c epAddr s).len = s.len := by
        unfold copyOf
        cases c.dir <;> rfl
      rw [copies,total,List.map_cons,List.sum_cons,hlen,List.map_cons,List.sum_cons]
      exact congrArg (s.len + ·) (ih _)

theorem total_append (cs ds : List Copy) : total (cs++ds) = total cs + total ds := by
  rw [total,List.map_append,List.sum_append]
  rfl

/-- The first copies of a list were made; of the following ones, those of a single
transfer, any part may have been made; the others were not begun. -/
structure Made (cs : List Copy) (source target target' : Memory) (done : ℕ) (rv : ℤ) :
    Prop where
  split : ∃ finished lost rest, cs = finished ++ lost ++ rest ∧
    (∀ a ∉ targets lost, target' a = copyAll source target (bytes finished) a) ∧
    Ends (done + total finished) (lost ++ rest) rv

theorem copies_ne_nil {epAddr : BitVec 64} {ss : List SwDesc} (h : ss ≠ []) :
    copies c epAddr ss ≠ [] := by
  cases ss with
  | nil => exact absurd rfl h
  | cons s ss => exact List.cons_ne_nil _ _

theorem taken_ne_nil (e : Engine c) {req : Request} (h : req.swDescIdx < req.sdesc.length) :
    taken e req ≠ [] := by
  intro hnil
  have hlen := length_taken e req
  rw [hnil,List.length_nil] at hlen
  have hpos := descCount_pos e h
  omega

/-- A transfer that did not complete: nothing before it is disturbed. -/
theorem made_part {e : Engine c} {req : Request} {source target target' : Memory}
    {done : ℕ} {rv : ℤ} (h : req.swDescIdx < req.sdesc.length)
    (hconfined : ∀ a ∉ targets (copies c req.epAddr (taken e req)), target' a = target a)
    (hrv : rv = eio ∨ rv = erestartsys ∨ rv = ebusy) :
    Made (copies c req.epAddr (req.sdesc.drop req.swDescIdx)) source target target' done
      (finish done (-rv)) := by
  refine ⟨[],copies c req.epAddr (taken e req),_,copies_transferInit e req,hconfined,?_⟩
  exact .part rv (List.append_ne_nil_of_left_ne_nil (copies_ne_nil (taken_ne_nil e h)) _) hrv

/-- A transfer that did, before what becomes of the rest. -/
theorem made_completed {e : Engine c} {req : Request} {source target target' : Memory}
    {done : ℕ} {rv : ℤ} (hfit : done + remaining req < 2^32)
    (hrest : Made (copies c (transferInit e req).2.1.epAddr
        ((transferInit e req).2.1.sdesc.drop (transferInit e req).2.1.swDescIdx)) source
      (copyAll source target (bytes (copies c req.epAddr (taken e req)))) target'
      (done + (transferInit e req).2.2.len) rv) :
    Made (copies c req.epAddr (req.sdesc.drop req.swDescIdx)) source target target' done rv := by
  have hsplit := remaining_transferInit e req
  have hbytes : (transferInit e req).2.2.len = total (copies c req.epAddr (taken e req)) := by
    rw [transferInit_len,total_copies,Nat.mod_eq_of_lt (by omega)]
  rcases hrest.split with ⟨finished,lost,rest,heq,hmem,hends⟩
  refine ⟨copies c req.epAddr (taken e req) ++ finished,lost,rest,?_,?_,?_⟩
  · rw [copies_transferInit e req,heq,List.append_assoc,List.append_assoc,List.append_assoc]
  · rwa [bytes_append,copyAll_append]
  · rwa [total_append,← hbytes,← Nat.add_assoc]

theorem remaining_completed (e : Engine c) {req : Request} {done : ℕ}
    (hfit : done + remaining req < 2^32) :
    done + (transferInit e req).2.2.len + remaining (transferInit e req).2.1 =
      done + remaining req := by
  have hsplit := remaining_transferInit e req
  rw [transferInit_len,Nat.mod_eq_of_lt (by omega),hsplit,Nat.add_assoc]

theorem remaining_done {req : Request} (h : req.sdesc.length ≤ req.swDescIdx) :
    remaining req = 0 := by
  rw [remaining,List.drop_of_length_le h]
  rfl

theorem finish_zero (done : ℕ) : finish done 0 = done := by
  unfold finish
  split_ifs with hd
  · rw [hd]
    rfl
  · rfl

theorem made_finished {req : Request} (source target : Memory) (done : ℕ)
    (h : req.sdesc.length ≤ req.swDescIdx) (epAddr : BitVec 64) :
    Made (copies c epAddr (req.sdesc.drop req.swDescIdx)) source target target done
      (finish done 0) := by
  rw [List.drop_of_length_le h,finish_zero]
  exact ⟨[],[],[],rfl,fun a _ => rfl,.whole⟩

theorem submitLoop_made (hw : Hardware c) (source : Memory) (e : Engine c) (req : Request)
    (target : Memory) (done : ℕ) (hlen : ∀ s ∈ req.sdesc, s.len < 2^32)
    (hfit : done + remaining req < 2^32) :
    Made (copies c req.epAddr (req.sdesc.drop req.swDescIdx)) source target
      (submitLoop hw source e req target done).memory done
      (submitLoop hw source e req target done).rv := by
  induction e, req using request_induction generalizing target done with
  | done e req hdone =>
      rw [submitLoop,dif_neg (Nat.not_lt.mpr hdone)]
      exact made_finished source target done hdone req.epAddr
  | more e req hmore ih =>
      have hchain := transferInit_chain (c := c) (e := e) hlen hmore
      have hconfined := hw.confined (transferInit e req).1 (transferInit e req).2.2 source
        target _ hchain
      rw [submitLoop,dif_pos hmore]
      simp only
      split
      · rename_i hcompleted
        rw [hw.copied _ _ source target _ hchain hcompleted]
        apply made_completed hfit
        apply ih _ _ _ hlen
        rwa [remaining_completed e hfit]
      · exact made_part hmore hconfined (Or.inl rfl)
      · exact made_part hmore hconfined (Or.inr (Or.inl rfl))
      · exact made_part hmore hconfined (Or.inr (Or.inr rfl))

/-- Byte for byte, what a call is to move between the listed host addresses and the
device addresses from `epAddr` on. -/
def pairs (c : Channel) (epAddr : BitVec 64) (hosts : List (BitVec 64)) :
    List (BitVec 64 × BitVec 64) :=
  match c.dir with
  | .toDevice => hosts.zip (span epAddr hosts.length)
  | .fromDevice => (span epAddr hosts.length).zip hosts

theorem length_pairs (c : Channel) (epAddr : BitVec 64) (hosts : List (BitVec 64)) :
    (pairs c epAddr hosts).length = hosts.length := by
  unfold pairs
  cases c.dir <;> simp

theorem pairs_append (c : Channel) (epAddr : BitVec 64) (hs ks : List (BitVec 64)) :
    pairs c epAddr (hs++ks) =
      pairs c epAddr hs ++ pairs c (epAddr + BitVec.ofNat 64 hs.length) ks := by
  unfold pairs
  cases c.dir
  · simp only
    rw [List.length_append,span_add,List.zip_append (length_span _ _).symm]
  · simp only
    rw [List.length_append,span_add,List.zip_append (length_span _ _)]

theorem copyOf_bytes (epAddr : BitVec 64) (s : SwDesc) :
    (copyOf c epAddr s).bytes = pairs c epAddr s.span := by
  unfold copyOf pairs SwDesc.span
  cases c.dir <;> simp [Copy.bytes]

theorem bytes_copies (hinc : c.nonIncrAddr = false) (epAddr : BitVec 64) (ss : List SwDesc) :
    bytes (copies c epAddr ss) = pairs c epAddr (ss.flatMap SwDesc.span) := by
  induction ss generalizing epAddr with
  | nil =>
      unfold pairs
      cases c.dir <;> rfl
  | cons s ss ih =>
      have hadvance : c.advance epAddr s.len = epAddr + BitVec.ofNat 64 s.len := by
        simp [Channel.advance,hinc]
      have hlen : s.span.length = s.len := length_span _ _
      rw [copies,List.flatMap_cons,pairs_append,hlen,← hadvance,← ih,← copyOf_bytes]
      rfl

theorem length_bytes (cs : List Copy) : (bytes cs).length = total cs := by
  induction cs with
  | nil => rfl
  | cons k cs ih =>
      rw [bytes,List.flatMap_cons,List.length_append,total,List.map_cons,List.sum_cons]
      have hk : k.bytes.length = k.len := by simp [Copy.bytes]
      exact congrArg₂ (· + ·) hk ih

/-- What is returned is how much was copied, an error only if that was nothing. -/
def Moved (ps : List (BitVec 64 × BitVec 64)) (source target target' : Memory) (rv : ℤ) :
    Prop :=
  ∃ n, CopiedUpTo ps source target target' n ∧
    ((n = ps.length ∧ rv = n) ∨
      (n < ps.length ∧ ∃ err, 0 < err ∧ rv = if n = 0 then -err else (n : ℤ)))

theorem total_pos {cs : List Copy} (hne : cs ≠ []) (hpos : ∀ k ∈ cs, 0 < k.len) :
    0 < total cs := by
  cases cs with
  | nil => exact absurd rfl hne
  | cons k ks =>
      have hk := hpos k List.mem_cons_self
      rw [total,List.map_cons,List.sum_cons]
      omega

theorem Moved.of_made {cs : List Copy} {source target target' : Memory} {rv : ℤ}
    (h : Made cs source target target' 0 rv) (hpos : ∀ k ∈ cs, 0 < k.len) :
    Moved (bytes cs) source target target' rv := by
  rcases h.split with ⟨finished,lost,rest,rfl,hmem,hends⟩
  have hcopied := copiedUpTo_append (bytes finished) (bytes lost) (bytes rest) source target
    target' hmem
  rw [← bytes_append,← bytes_append,← List.append_assoc] at hcopied
  refine ⟨_,hcopied,?_⟩
  rw [Nat.zero_add,← length_bytes] at hends
  have hlength : (bytes (finished++lost++rest)).length =
      (bytes finished).length + total (lost++rest) := by
    rw [List.append_assoc,bytes_append,List.length_append,length_bytes (lost++rest)]
  rw [hlength]
  have hleft : ∀ k ∈ lost++rest, 0 < k.len := fun k hk =>
    hpos k (by rw [List.append_assoc]; exact List.mem_append_right _ hk)
  generalize lost++rest = left at hends hleft
  cases hends with
  | whole => exact Or.inl ⟨rfl,rfl⟩
  | part err hne herr =>
      refine Or.inr ⟨Nat.lt_add_of_pos_right (total_pos hne hleft),err,?_,rfl⟩
      rcases herr with rfl | rfl | rfl <;> decide

theorem copies_pos {epAddr : BitVec 64} {ss : List SwDesc} (h : ∀ s ∈ ss, 0 < s.len) :
    ∀ k ∈ copies c epAddr ss, 0 < k.len := by
  induction ss generalizing epAddr with
  | nil => exact fun k hk => absurd hk List.not_mem_nil
  | cons s ss ih =>
      intro k hk
      rcases List.mem_cons.mp hk with rfl | hk
      · have hs := h s List.mem_cons_self
        unfold copyOf
        cases c.dir <;> exact hs
      · exact ih (fun t ht => h t (List.mem_cons_of_mem _ ht)) k hk

theorem sum_len_eq (ss : List SwDesc) :
    (ss.map SwDesc.len).sum = (ss.flatMap SwDesc.span).length := by
  induction ss with
  | nil => rfl
  | cons s ss ih =>
      rw [List.map_cons,List.sum_cons,ih,List.flatMap_cons,List.length_append]
      exact congrArg (· + _) (length_span _ _).symm

variable {descBlenMax : ℕ} [NeZero descBlenMax]

theorem submit_eq {hw : Hardware c} {e : Engine c} {epAddr : BitVec 64} {sgl : List Sg}
    {source target : Memory} {write : Bool}
    (hdir : c.dir = if write then .toDevice else .fromDevice) (hne : sgl ≠ [])
    (hcount : NoWrap descBlenMax sgl) :
    xdmaXferSubmit descBlenMax hw false write e epAddr sgl source target =
      submitLoop hw source e ⟨pieces descBlenMax sgl,epAddr,
        (sgl.map fun sg => sg.dmaLen.toNat).sum % 2^32,0⟩ target 0 := by
  rw [xdmaXferSubmit,if_neg Bool.false_ne_true,if_neg (not_not.mpr hdir),
    if_neg (mt List.length_eq_zero_iff.mp hne),initRequest_eq hcount]

theorem moved_of_made {epAddr : BitVec 64} {sgl : List Sg} {source target target' : Memory}
    {rv : ℤ} (hinc : c.nonIncrAddr = false)
    (h : Made (copies c epAddr (pieces descBlenMax sgl)) source target target' 0 rv) :
    Moved (pairs c epAddr (addresses sgl)) source target target' rv := by
  have hbytes := bytes_copies hinc epAddr (pieces descBlenMax sgl)
  rw [pieces_span] at hbytes
  rw [← hbytes]
  exact Moved.of_made h (copies_pos fun s hs => (pieces_len sgl s hs).1)

theorem submitLoop_moved {hw : Hardware c} {e : Engine c} {epAddr : BitVec 64} {sgl : List Sg}
    {source target : Memory} {req : Request} (hinc : c.nonIncrAddr = false)
    (hmax : descBlenMax < 2^32) (htotal : (addresses sgl).length < 2^32)
    (hreq : initRequest descBlenMax sgl epAddr = some req) :
    Moved (pairs c epAddr (addresses sgl)) source target
      (submitLoop hw source e req target 0).memory (submitLoop hw source e req target 0).rv := by
  rw [initRequest_some hreq]
  have hmade := submitLoop_made hw source e ⟨pieces descBlenMax sgl,epAddr,
    (sgl.map fun sg => sg.dmaLen.toNat).sum % 2^32,0⟩ target 0
    (fun s hs => lt_of_le_of_lt (pieces_len sgl s hs).2 hmax)
    (by rw [remaining,List.drop_zero,sum_len_eq,pieces_span,Nat.zero_add]; exact htotal)
  rw [List.drop_zero] at hmade
  exact moved_of_made hinc hmade

/-- Whatever the lengths of the entries, the size of the ring and the place where the
last transfer ended: what the call returns is how many bytes, from the first on, have
been copied. -/
theorem submit_moves (hw : Hardware c) (e : Engine c) (epAddr : BitVec 64) (sgl : List Sg)
    (source target : Memory) (write : Bool) (hinc : c.nonIncrAddr = false)
    (hdir : c.dir = if write then .toDevice else .fromDevice) (hmax : descBlenMax < 2^32)
    (hne : sgl ≠ []) (hcount : NoWrap descBlenMax sgl)
    (htotal : (addresses sgl).length < 2^32) :
    let r := xdmaXferSubmit descBlenMax hw false write e epAddr sgl source target
    Moved (pairs c epAddr (addresses sgl)) source target r.memory r.rv := by
  simp only
  rw [submit_eq hdir hne hcount]
  exact submitLoop_moved hinc hmax htotal (initRequest_eq hcount epAddr)

def walk (fetch : BitVec 64 → Option Desc) : ℕ → BitVec 64 → Option (List Copy)
  | 0, _ => none
  | n+1, addr =>
      (fetch addr).bind fun d =>
        if d.Valid then
          if d.stopped then some [d.copy] else (walk fetch n d.next).map (d.copy :: ·)
        else none

theorem walk_chain {fetch : BitVec 64 → Option Desc} {n : ℕ} {addr : BitVec 64}
    {cs : List Copy} (h : walk fetch n addr = some cs) : Chain fetch addr cs := by
  induction n generalizing addr cs with
  | zero => contradiction
  | succ n ih =>
      rcases Option.bind_eq_some_iff.mp h with ⟨d,hd,h⟩
      by_cases hvalid : d.Valid
      · rw [if_pos hvalid] at h
        cases hstop : d.stopped with
        | true =>
            rw [hstop,if_pos rfl] at h
            cases h
            exact .last hd hvalid hstop
        | false =>
            rw [hstop,if_neg Bool.false_ne_true] at h
            rcases Option.map_eq_some_iff.mp h with ⟨ds,hds,rfl⟩
            exact .next hd hvalid hstop (ih hds)
      · rw [if_neg hvalid] at h
        contradiction

/-- It makes the copies of the chain, or none when the chain is broken. -/
def Hardware.follow (c : Channel) : Hardware c where
  run e x source target :=
    match walk e.fetch x.descNum x.descBus with
    | some cs => (.completed,copyAll source target (bytes cs))
    | none => (.failed,target)
  copied e x source target cs hcs hcompleted := by
    cases hwalk : walk e.fetch x.descNum x.descBus with
    | none =>
        rw [hwalk] at hcompleted
        contradiction
    | some ds => rw [(walk_chain hwalk).unique hcs]
  confined e x source target cs hcs a ha := by
    cases hwalk : walk e.fetch x.descNum x.descBus with
    | none => rfl
    | some ds =>
        rw [(walk_chain hwalk).unique hcs]
        exact copyAll_outside _ _ ha

theorem walk_of_chain {fetch : BitVec 64 → Option Desc} {addr : BitVec 64} {cs : List Copy}
    (h : Chain fetch addr cs) {n : ℕ} (hn : cs.length ≤ n) : walk fetch n addr = some cs := by
  induction h generalizing n with
  | last hd hvalid hstop =>
      cases n with
      | zero => contradiction
      | succ n => rw [walk,hd,Option.bind_some,if_pos hvalid,hstop,if_pos rfl]
  | next hd hvalid hstop _ ih =>
      cases n with
      | zero => contradiction
      | succ n =>
          rw [walk,hd,Option.bind_some,if_pos hvalid,hstop,if_neg Bool.false_ne_true,
            ih (Nat.le_of_succ_le_succ hn)]
          rfl

/-- Every transfer that is handed over completes. -/
def Hardware.Reliable (hw : Hardware c) : Prop :=
  ∀ (e : Engine c) (req : Request) (source target : Memory),
    req.swDescIdx < req.sdesc.length → (∀ s ∈ req.sdesc, s.len < 2^32) →
    (hw.run (transferInit e req).1 (transferInit e req).2.2 source target).1 = .completed

theorem length_copies (epAddr : BitVec 64) (ss : List SwDesc) :
    (copies c epAddr ss).length = ss.length := by
  induction ss generalizing epAddr with
  | nil => rfl
  | cons s ss ih => rw [copies,List.length_cons,List.length_cons,ih]

theorem follow_reliable (c : Channel) : (Hardware.follow c).Reliable := by
  intro e req source target h hlen
  have hwalk : walk (transferInit e req).1.fetch (transferInit e req).2.2.descNum
      (transferInit e req).2.2.descBus = some (copies c req.epAddr (taken e req)) := by
    apply walk_of_chain (transferInit_chain hlen h)
    rw [length_copies,length_taken]
    rfl
  simp only [Hardware.follow,hwalk]

theorem submitLoop_reliable {hw : Hardware c} (hrel : hw.Reliable) (source : Memory)
    (e : Engine c) (req : Request) (target : Memory) (done : ℕ)
    (hlen : ∀ s ∈ req.sdesc, s.len < 2^32) (hfit : done + remaining req < 2^32) :
    (submitLoop hw source e req target done).rv = ((done + remaining req : ℕ) : ℤ) := by
  induction e, req using request_induction generalizing target done with
  | done e req hdone =>
      rw [submitLoop,dif_neg (Nat.not_lt.mpr hdone),remaining_done hdone,Nat.add_zero]
      exact finish_zero done
  | more e req hmore ih =>
      rw [submitLoop,dif_pos hmore]
      simp only
      rw [hrel e req source target hmore hlen]
      simp only
      rw [ih _ _ _ hlen (by rwa [remaining_completed e hfit]),remaining_completed e hfit]

/-- A reliable engine moves everything it is asked to. -/
theorem submit_reliable {hw : Hardware c} (hrel : hw.Reliable) (e : Engine c)
    (epAddr : BitVec 64) (sgl : List Sg) (source target : Memory) (write : Bool)
    (hdir : c.dir = if write then .toDevice else .fromDevice) (hmax : descBlenMax < 2^32)
    (hne : sgl ≠ []) (hcount : NoWrap descBlenMax sgl)
    (htotal : (addresses sgl).length < 2^32) :
    (xdmaXferSubmit descBlenMax hw false write e epAddr sgl source target).rv =
      ((addresses sgl).length : ℤ) := by
  have hpieces : ∀ s ∈ pieces descBlenMax sgl, 0 < s.len ∧ s.len ≤ descBlenMax := pieces_len sgl
  have hremaining : remaining ⟨pieces descBlenMax sgl,epAddr,
      (sgl.map fun sg => sg.dmaLen.toNat).sum % 2^32,0⟩ = (addresses sgl).length := by
    rw [remaining,List.drop_zero,sum_len_eq,pieces_span]
  rw [submit_eq hdir hne hcount,submitLoop_reliable hrel source e _ target 0
    (fun s hs => lt_of_le_of_lt (hpieces s hs).2 hmax) (by rw [hremaining]; omega),hremaining,
    Nat.zero_add]

/-- Forty bytes in two entries, written through a ring of two descriptors. -/
theorem submit_moves_two :
    let c : Channel := ⟨0x1000,2,.toDevice,false,by decide,by decide⟩
    let e : Engine c := ⟨fun _ => ⟨0,0,0,0,0,0,0,0⟩,⟨1,by decide⟩,0⟩
    let sgl : List Sg := [⟨0x9ff0,16⟩,⟨0xc000,24⟩]
    let r := xdmaXferSubmit 10 (Hardware.follow c) false true e 0x40 sgl (fun a => a.setWidth 8)
      (fun _ => 0)
    Moved (pairs c 0x40 (addresses sgl)) (fun a => a.setWidth 8) (fun _ => 0) r.memory r.rv :=
  submit_moves _ _ _ _ _ _ true rfl rfl (by decide) (by decide)
    ⟨by decide,by decide⟩ (by decide)

end FpgaTest.XdmaSubmit
