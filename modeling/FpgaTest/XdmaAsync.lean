import FpgaTest.XdmaEffect

/-!
# Requests that nobody waits for

`xdma_xfer_submit_nowait` builds the transfers of a request and queues them one
after the other without waiting. The ring is not asked whether its descriptors
are still in use, and a request has places for two transfers only: both are
enough as long as the pieces that are under way at one time fit in the ring.
Behind the last transfer of a request `xdma_xfer_completion` adds up what was
moved.
-/
namespace FpgaTest.XdmaAsync
open ByteCopies XdmaRequest XdmaTransfer XdmaSubmit XdmaEffect
open XdmaEngine (Ip Out Transfer TransferState Entry Event Inv calmStep)

variable {c : Channel}

/-- The transfers of a request, as many as it takes. -/
def buildAll (e : Engine c) (req : Request) : Engine c × List Xfer :=
  if _h : req.swDescIdx < req.sdesc.length then
    let r := transferInit e req
    let rest := buildAll r.1 r.2.1
    (rest.1,r.2.2::rest.2)
  else (e,[])
termination_by req.sdesc.length - req.swDescIdx
decreasing_by
  have hpos := descCount_pos e _h
  show req.sdesc.length - (req.swDescIdx + descCount e req) < _
  omega

/-- Requests built one after the other. -/
def buildEach (e : Engine c) : List Request → Engine c × List (List Xfer)
  | [] => (e,[])
  | req::reqs =>
      let r := buildAll e req
      let rest := buildEach r.1 reqs
      (rest.1,r.2::rest.2)

/-- The size of `tfer`. -/
def tferMax : ℕ := 2

/-- The loop of `xdma_xfer_submit_nowait`, with the places of `tfer` that are left. A
transfer without a place is written over the fields behind `tfer`; what becomes of the
call then is not known. -/
def nowaitLoop : ℕ → Engine c → Request → Option (Engine c × List Xfer)
  | places, e, req =>
      if req.swDescIdx < req.sdesc.length then
        match places with
        | 0 => none
        | places+1 =>
            let r := transferInit e req
            (nowaitLoop places r.1 r.2.1).map fun rest => (rest.1,r.2.2::rest.2)
      else some (e,[])

/-- Requests that are submitted one after the other. -/
def nowaitAll (e : Engine c) : List Request → Option (Engine c × List (List Xfer))
  | [] => some (e,[])
  | req::reqs =>
      (nowaitLoop tferMax e req).bind fun r =>
        (nowaitAll r.1 reqs).map fun rest => (rest.1,r.2::rest.2)

/-- `xdma_xfer_completion`: the first transfer that was not completed ends the
count. Its error is not returned. -/
def xdmaXferCompletion (state : ℕ → TransferState) : List (ℕ × Xfer) → ℕ
  | [] => 0
  | (id,x)::xs => if state id = .completed then x.len + xdmaXferCompletion state xs else 0

theorem buildAll_more {e : Engine c} {req : Request} (h : req.swDescIdx < req.sdesc.length) :
    buildAll e req = ((buildAll (transferInit e req).1 (transferInit e req).2.1).1,
      (transferInit e req).2.2::(buildAll (transferInit e req).1 (transferInit e req).2.1).2) := by
  rw [buildAll,dif_pos h]

theorem buildAll_done {e : Engine c} {req : Request} (h : req.sdesc.length ≤ req.swDescIdx) :
    buildAll e req = (e,[]) := by
  rw [buildAll,dif_neg (Nat.not_lt.mpr h)]

/-- The loop returns what is built if the places suffice for it. -/
theorem nowaitLoop_eq (places : ℕ) (e : Engine c) (req : Request) :
    nowaitLoop places e req =
      if (buildAll e req).2.length ≤ places then some (buildAll e req) else none := by
  induction places generalizing e req with
  | zero =>
      unfold nowaitLoop
      by_cases hmore : req.swDescIdx < req.sdesc.length
      · rw [if_pos hmore,buildAll_more hmore,if_neg (by simp)]
      · rw [if_neg hmore,buildAll_done (Nat.le_of_not_lt hmore)]
        exact (if_pos (Nat.zero_le _)).symm
  | succ places ih =>
      unfold nowaitLoop
      by_cases hmore : req.swDescIdx < req.sdesc.length
      · rw [if_pos hmore,buildAll_more hmore]
        simp only [ih,List.length_cons,Nat.add_le_add_iff_right]
        split_ifs <;> rfl
      · rw [if_neg hmore,buildAll_done (Nat.le_of_not_lt hmore)]
        exact (if_pos (Nat.zero_le _)).symm

theorem nowaitLoop_some {places : ℕ} {e : Engine c} {req : Request}
    {r : Engine c × List Xfer} (h : nowaitLoop places e req = some r) : r = buildAll e req := by
  rw [nowaitLoop_eq] at h
  split_ifs at h
  exact (Option.some.inj h).symm

theorem nowaitAll_some {e : Engine c} {reqs : List Request}
    {r : Engine c × List (List Xfer)} (h : nowaitAll e reqs = some r) : r = buildEach e reqs := by
  induction reqs generalizing e r with
  | nil => exact (Option.some.inj h).symm
  | cons req reqs ih =>
      rcases Option.bind_eq_some_iff.mp h with ⟨first,hfirst,hrest⟩
      rcases Option.map_eq_some_iff.mp hrest with ⟨rest,hreqs,rfl⟩
      rw [nowaitLoop_some hfirst] at hreqs ⊢
      rw [ih hreqs]
      rfl

theorem transferInit_left (e : Engine c) (req : Request) :
    (transferInit e req).2.1.sdesc.length - (transferInit e req).2.1.swDescIdx =
      req.sdesc.length - req.swDescIdx - descCount e req := by
  show req.sdesc.length - (req.swDescIdx + descCount e req) = _
  omega

theorem transferInit_descIdx (e : Engine c) (req : Request) :
    ((transferInit e req).1.descIdx : ℕ) = (e.descIdx + descCount e req) % c.descMax := rfl

theorem length_buildAll (e : Engine c) (req : Request)
    (h : req.swDescIdx < req.sdesc.length) :
    (buildAll e req).2.length =
      (e.descIdx + (req.sdesc.length - req.swDescIdx) + c.descMax - 1)/c.descMax := by
  induction e, req using request_induction with
  | done e req hdone => exact absurd h (Nat.not_lt.mpr hdone)
  | more e req hmore ih =>
      have hidx := e.descIdx.isLt
      have hcount := descCount_eq e req
      have hleft := transferInit_left e req
      have hnext := transferInit_descIdx e req
      rw [buildAll_more hmore,List.length_cons]
      by_cases hfull : e.descIdx + (req.sdesc.length - req.swDescIdx) ≤ c.descMax
      · -- the last transfer
        rw [buildAll_done (by omega),List.length_nil]
        symm
        apply Nat.div_eq_of_lt_le <;> omega
      · have hround : descCount e req = c.descMax - e.descIdx := by omega
        have hzero : ((transferInit e req).1.descIdx : ℕ) = 0 := by
          rw [hnext,hround,Nat.add_sub_cancel' hidx.le,Nat.mod_self]
        rw [ih _ (by omega),hzero,hleft,← Nat.add_div_right _ (by omega : 0 < c.descMax)]
        congr 1
        omega

/-- Transfers built one after the other, each with what it is to do. -/
inductive Builds : Engine c → List (Xfer × List Copy) → Engine c → Prop
  | nil (e : Engine c) : Builds e [] e
  | cons {e e' : Engine c} {req : Request} {built : List (Xfer × List Copy)} :
      (∀ x ∈ req.sdesc, x.len < 2^32) → req.swDescIdx < req.sdesc.length →
      Builds (transferInit e req).1 built e' →
      Builds e (((transferInit e req).2.2,copies c req.epAddr (taken e req))::built) e'

/-- The slots that transfers take. -/
def slots (built : List (Xfer × List Copy)) : ℕ := (built.map fun p => p.1.descNum).sum

/-- The slots of a transfer hold its chain, whatever else is in the ring. -/
def Holds (e : Engine c) (x : Xfer) (cs : List Copy) : Prop :=
  ∀ r : Engine c, (∀ i < x.descNum, r.desc (x.descIndex+i) = e.desc (x.descIndex+i)) →
    Chain r.fetch x.descBus cs

section Ring
variable {e e' e'' : Engine c} {req : Request} {built built' : List (Xfer × List Copy)}

theorem slots_cons (p : Xfer × List Copy) (built : List (Xfer × List Copy)) :
    slots (p::built) = p.1.descNum + slots built := rfl

theorem Builds.append (h : Builds e built e') (h' : Builds e' built' e'') :
    Builds e (built++built') e'' := by
  induction h with
  | nil => exact h'
  | cons hlen hmore _ ih => exact .cons hlen hmore (ih h')

theorem transferInit_holds (hlen : ∀ x ∈ req.sdesc, x.len < 2^32)
    (h : req.swDescIdx < req.sdesc.length) :
    Holds (transferInit e req).1 (transferInit e req).2.2 (copies c req.epAddr (taken e req)) := by
  intro r hsame
  have hpos := descCount_pos e h
  have htaken : ∀ s ∈ taken e req, s.len < 2^32 := fun s hs =>
    hlen s (List.mem_of_mem_drop (List.mem_of_mem_take hs))
  have hsame' : ∀ i < (taken e req).length,
      r.desc (e.descIdx+i) = (transferInit e req).1.desc (e.descIdx+i) := by
    intro i hi
    rw [length_taken] at hi
    exact hsame i hi
  rw [← length_taken] at hpos
  exact chain_from htaken hsame' (k := (taken e req).length-1) (i := 0) (by omega)

/-- A slot that lies in no transfer is left as it is. -/
theorem Builds.outside (h : Builds e built e') {s : ℕ}
    (hs : ∀ j < slots built, s ≠ (e.descIdx + j) % c.descMax) : e'.desc s = e.desc s := by
  induction h with
  | nil => rfl
  | @cons e e' req built hlen hmore _ ih =>
      have hcount := descCount_eq e req
      have hidx := e.descIdx.isLt
      have hslots : slots (((transferInit e req).2.2,copies c req.epAddr (taken e req))::built) =
          descCount e req + slots built := rfl
      rw [hslots] at hs
      rw [ih]
      · apply transferInit_outside _ (descCount_pos e hmore)
        by_contra hin
        apply hs (s-e.descIdx) (by omega)
        rw [Nat.mod_eq_of_lt (by omega)]
        omega
      · intro j hj heq
        apply hs (descCount e req + j) (by omega)
        rw [heq,transferInit_descIdx,Nat.mod_add_mod,Nat.add_assoc]

/-- Two places less than a round apart are two slots; the first one is not wrapped. -/
theorem slot_ne {base max i j : ℕ} (hi : base + i < max) (hij : i < j) (hj : j < i + max) :
    base + i ≠ (base + j) % max := by
  by_cases hwrap : base + j < max
  · rw [Nat.mod_eq_of_lt hwrap]
    omega
  · rw [Nat.mod_eq_sub_mod (by omega),Nat.mod_eq_of_lt (by omega)]
    omega

/-- As long as the transfers together fit in the ring, each keeps its chain. -/
theorem Builds.holds (h : Builds e built e') (hfit : slots built ≤ c.descMax) :
    ∀ p ∈ built, Holds e' p.1 p.2 := by
  induction h with
  | nil => exact fun p hp => absurd hp List.not_mem_nil
  | @cons e e' req built hlen hmore hrest ih =>
      have hcount := descCount_eq e req
      have hidx := e.descIdx.isLt
      have hslots : slots (((transferInit e req).2.2,copies c req.epAddr (taken e req))::built) =
          descCount e req + slots built := rfl
      rw [hslots] at hfit
      intro p hp
      rcases List.mem_cons.mp hp with rfl | hp
      · intro r hsame
        apply transferInit_holds hlen hmore r
        intro i hi
        have hi' : i < descCount e req := hi
        rw [hsame i hi]
        show e'.desc (e.descIdx+i) = (transferInit e req).1.desc (e.descIdx+i)
        apply hrest.outside
        intro j hj
        rw [transferInit_descIdx,Nat.mod_add_mod,Nat.add_assoc]
        exact slot_ne (by omega) (by omega) (by omega)
      · exact ih (by omega) p hp

theorem Builds.spec (h : Builds e built e') :
    ∀ p ∈ built, p.2.length = p.1.descNum ∧ 0 < p.1.descNum ∧ p.1.len = total p.2 % 2^32 := by
  induction h with
  | nil => exact fun p hp => absurd hp List.not_mem_nil
  | @cons e e' req built hlen hmore _ ih =>
      intro p hp
      rcases List.mem_cons.mp hp with rfl | hp
      · refine ⟨?_,descCount_pos e hmore,?_⟩
        · rw [length_copies,length_taken]
          rfl
        · rw [transferInit_len,total_copies]
      · exact ih p hp

theorem buildAll_builds (e : Engine c) (req : Request) (hlen : ∀ x ∈ req.sdesc, x.len < 2^32) :
    ∃ built, Builds e built (buildAll e req).1 ∧ built.map Prod.fst = (buildAll e req).2 ∧
      built.flatMap Prod.snd = copies c req.epAddr (req.sdesc.drop req.swDescIdx) := by
  induction e, req using request_induction with
  | done e req hdone =>
      rw [buildAll_done hdone,List.drop_of_length_le hdone]
      exact ⟨[],.nil e,rfl,rfl⟩
  | more e req hmore ih =>
      rcases ih (transferInit e req).1 hlen with ⟨built,hbuilds,hxfers,hcopies⟩
      rw [buildAll_more hmore]
      refine ⟨_,.cons hlen hmore hbuilds,?_,?_⟩
      · rw [List.map_cons,hxfers]
      · rw [List.flatMap_cons,hcopies]
        exact (copies_transferInit e req).symm

theorem buildEach_builds (e : Engine c) (reqs : List Request)
    (hlen : ∀ req ∈ reqs, ∀ x ∈ req.sdesc, x.len < 2^32) :
    ∃ builts : List (List (Xfer × List Copy)), Builds e builts.flatten (buildEach e reqs).1 ∧
      builts.map (List.map Prod.fst) = (buildEach e reqs).2 ∧
      builts.map (List.flatMap Prod.snd) =
        reqs.map fun req => copies c req.epAddr (req.sdesc.drop req.swDescIdx) := by
  induction reqs generalizing e with
  | nil => exact ⟨[],.nil e,rfl,rfl⟩
  | cons req reqs ih =>
      rcases buildAll_builds e req (hlen req List.mem_cons_self) with
        ⟨built,hbuilds,hxfers,hcopies⟩
      rcases ih (buildAll e req).1 (fun r hr => hlen r (List.mem_cons_of_mem _ hr)) with
        ⟨builts,hbuilds',hxfers',hcopies'⟩
      refine ⟨built::builts,hbuilds.append hbuilds',?_,?_⟩
      · rw [List.map_cons,hxfers,hxfers']
        rfl
      · rw [List.map_cons,hcopies,hcopies',List.map_cons]

theorem Builds.slots_eq (h : Builds e built e') :
    slots built = (built.flatMap Prod.snd).length := by
  have hspec := h.spec
  clear h
  induction built with
  | nil => rfl
  | cons p built ih =>
      rw [slots_cons,ih fun q hq => hspec q (List.mem_cons_of_mem _ hq),List.flatMap_cons,
        List.length_append,(hspec p List.mem_cons_self).1]

theorem buildAll_outside (hlen : ∀ x ∈ req.sdesc, x.len < 2^32) {s : ℕ}
    (hs : ∀ j < req.sdesc.length - req.swDescIdx, s ≠ (e.descIdx + j) % c.descMax) :
    (buildAll e req).1.desc s = e.desc s := by
  rcases buildAll_builds e req hlen with ⟨built,hbuilds,-,hcopies⟩
  apply hbuilds.outside
  rwa [hbuilds.slots_eq,hcopies,length_copies,List.length_drop]

/-- A slot of the ring holds the last piece that has come to it. -/
theorem buildAll_slot (hlen : ∀ x ∈ req.sdesc, x.len < 2^32) {k : ℕ} {x : SwDesc}
    (hx : (req.sdesc.drop req.swDescIdx)[k]? = some x)
    (hlast : req.sdesc.length - req.swDescIdx ≤ k + c.descMax) :
    ((buildAll e req).1.desc ((e.descIdx+k) % c.descMax)).copy =
      copyOf c (c.advanceAll req.epAddr ((req.sdesc.drop req.swDescIdx).take k)) x := by
  induction e, req using request_induction generalizing k with
  | done e req hdone =>
      rw [List.drop_of_length_le hdone] at hx
      contradiction
  | more e req hmore ih =>
      have hcount := descCount_eq e req
      have hidx := e.descIdx.isLt
      have hleft := transferInit_left e req
      have hk := (List.getElem?_eq_some_iff.mp hx).1
      rw [List.length_drop] at hk
      rw [drop_taken e req] at hx
      rw [buildAll_more hmore]
      by_cases hthis : k < descCount e req
      · -- later transfers leave this slot alone
        have hslot : (e.descIdx+k) % c.descMax = e.descIdx+k := Nat.mod_eq_of_lt (by omega)
        have htaken : k < (taken e req).length := by rwa [length_taken]
        rw [List.getElem?_append_left htaken,List.getElem?_eq_getElem htaken] at hx
        obtain rfl := Option.some.inj hx
        have hfront : (req.sdesc.drop req.swDescIdx).take k = (taken e req).take k := by
          rw [drop_taken e req,List.take_append_of_le_length htaken.le]
        have hlater : (buildAll (transferInit e req).1 (transferInit e req).2.1).1.desc
            (e.descIdx+k) = (transferInit e req).1.desc (e.descIdx+k) := by
          refine @buildAll_outside c (transferInit e req).1 (transferInit e req).2.1 hlen _ ?_
          intro j hj
          rw [transferInit_descIdx,Nat.mod_add_mod,Nat.add_assoc]
          exact slot_ne (by omega) (by omega) (by omega)
        rw [hslot,hfront]
        simp only
        rw [hlater]
        exact transferInit_copy htaken (hlen _ (List.mem_of_mem_drop
          (List.mem_of_mem_take (List.getElem_mem htaken))))
      · have hslot : ((transferInit e req).1.descIdx + (k - descCount e req)) % c.descMax =
            (e.descIdx+k) % c.descMax := by
          rw [transferInit_descIdx,Nat.mod_add_mod]
          congr 1
          omega
        have hlength := length_taken e req
        rw [List.getElem?_append_right (by omega),hlength] at hx
        have hrest := ih (transferInit e req).1 hlen hx (by omega)
        rw [hslot] at hrest
        rw [hrest,transferInit_epAddr,← advanceAll_append]
        congr 2
        rw [drop_taken e req,List.take_append,hlength,
          List.take_of_length_le (by omega : (taken e req).length ≤ k)]
        rfl

end Ring

section Overrun
variable {descBlenMax : ℕ} [NeZero descBlenMax] {sgl : List Sg} {epAddr : BitVec 64}
  {req : Request}

/-- A request needs more transfers than it has places for if and only if its
pieces, counted from the start of the ring, go more than twice round; with no
more pieces than the ring has descriptors that cannot happen. With more of them,
the first descriptor of the first transfer is no longer its own when the call
returns. -/
theorem nowait_overrun (e : Engine c) (hmax : descBlenMax < 2^32)
    (hreq : initRequest descBlenMax sgl epAddr = some req) :
    (nowaitLoop tferMax e req = none ↔ 2*c.descMax < e.descIdx + req.sdesc.length) ∧
      (req.sdesc.length ≤ c.descMax → nowaitLoop tferMax e req ≠ none) ∧
      (c.descMax < req.sdesc.length → ∀ ring xfers,
        nowaitLoop tferMax e req = some (ring,xfers) → ∃ k x, 0 < k ∧ req.sdesc[k]? = some x ∧
          (ring.fetch (c.bus e.descIdx)).map Desc.copy =
            some (copyOf c (c.advanceAll epAddr (req.sdesc.take k)) x)) := by
  have hidx := e.descIdx.isLt
  have hpos : 0 < c.descMax := e.descIdx.pos
  have hlen := len_init hmax hreq
  have hstart : req.swDescIdx = 0 := by rw [initRequest_some hreq]
  have hep : req.epAddr = epAddr := by rw [initRequest_some hreq]
  have hplaces : nowaitLoop tferMax e req = none ↔
      2*c.descMax < e.descIdx + req.sdesc.length := by
    have hnone : nowaitLoop tferMax e req = none ↔ tferMax < (buildAll e req).2.length := by
      rw [nowaitLoop_eq,ite_eq_right_iff]
      simp
    rw [hnone,tferMax]
    by_cases hsome : req.swDescIdx < req.sdesc.length
    · rw [length_buildAll e req hsome,hstart,Nat.sub_zero,← Nat.succ_le_iff,
        Nat.le_div_iff_mul_le hpos]
      omega
    · rw [buildAll_done (Nat.le_of_not_lt hsome),List.length_nil]
      omega
  refine ⟨hplaces,fun hfit hnone => ?_,fun hover ring xfers hsome => ?_⟩
  · have := hplaces.mp hnone
    omega
  · obtain ⟨rfl,rfl⟩ := Prod.mk.inj (nowaitLoop_some hsome)
    have hround := Nat.div_add_mod' (req.sdesc.length-1) c.descMax
    have hrest := Nat.mod_lt (req.sdesc.length-1) hpos
    have hturn : 1 ≤ (req.sdesc.length-1)/c.descMax :=
      (Nat.le_div_iff_mul_le hpos).mpr (by omega)
    have hk := Nat.le_mul_of_pos_left c.descMax hturn
    have hx : (req.sdesc.drop req.swDescIdx)[(req.sdesc.length-1)/c.descMax*c.descMax]? =
        some req.sdesc[(req.sdesc.length-1)/c.descMax*c.descMax] := by
      rw [hstart,List.drop_zero]
      exact List.getElem?_eq_getElem (by omega)
    have hslot := buildAll_slot (e := e) hlen hx (by omega)
    rw [Nat.add_mul_mod_self_right,Nat.mod_eq_of_lt hidx,hstart,List.drop_zero,hep] at hslot
    refine ⟨(req.sdesc.length-1)/c.descMax*c.descMax,_,by omega,
      List.getElem?_eq_getElem (by omega),?_⟩
    rw [Engine.fetch_bus _ hidx,Option.map_some,hslot]

/-- Three pieces for a ring of two descriptors. -/
theorem nowait_overrun_three :
    let req : Request := ⟨[⟨0x9ff0,16⟩,⟨0xc000,16⟩,⟨0xc010,8⟩],0x40,40,0⟩
    let longer : Request := ⟨[⟨0x9ff0,8⟩,⟨0x9ff8,8⟩,⟨0xc000,8⟩,⟨0xc008,8⟩,⟨0xc010,8⟩],0x40,40,0⟩
    (∃ ring xfers k x, nowaitLoop tferMax smallEngine req = some (ring,xfers) ∧ 0 < k ∧
      req.sdesc[k]? = some x ∧ (ring.fetch (smallRing.bus smallEngine.descIdx)).map Desc.copy =
        some (copyOf smallRing (smallRing.advanceAll 0x40 (req.sdesc.take k)) x)) ∧
      nowaitLoop tferMax smallEngine longer = none := by
  have hreq : initRequest 16 twoEntries 0x40 =
      some ⟨[⟨0x9ff0,16⟩,⟨0xc000,16⟩,⟨0xc010,8⟩],0x40,40,0⟩ := by
    have hfirst : splitEntry 16 0x9ff0 16 = [⟨0x9ff0,16⟩] :=
      splitEntry_short _ (by decide) (by decide)
    have hrest : splitEntry 16 0xc010 8 = [⟨0xc010,8⟩] :=
      splitEntry_short _ (by decide) (by decide)
    have hsecond : splitEntry 16 0xc000 24 = [⟨0xc000,16⟩,⟨0xc010,8⟩] := by
      rw [splitEntry_long _ (by decide)]
      exact congrArg _ hrest
    have hpieces : pieces 16 twoEntries = [⟨0x9ff0,16⟩,⟨0xc000,16⟩,⟨0xc010,8⟩] := by
      show splitEntry 16 0x9ff0 16 ++ (splitEntry 16 0xc000 24 ++ []) = _
      rw [hfirst,hsecond]
      rfl
    rw [initRequest_eq ⟨by decide,by decide⟩,hpieces]
    rfl
  have hlonger : initRequest 8 twoEntries 0x40 =
      some ⟨[⟨0x9ff0,8⟩,⟨0x9ff8,8⟩,⟨0xc000,8⟩,⟨0xc008,8⟩,⟨0xc010,8⟩],0x40,40,0⟩ := by
    have hfirst : splitEntry 8 0x9ff0 16 = [⟨0x9ff0,8⟩,⟨0x9ff8,8⟩] := by
      rw [splitEntry_long _ (by decide)]
      exact congrArg _ (splitEntry_short _ (by decide) (by decide))
    have hrest : splitEntry 8 0xc008 16 = [⟨0xc008,8⟩,⟨0xc010,8⟩] := by
      rw [splitEntry_long _ (by decide)]
      exact congrArg _ (splitEntry_short _ (by decide) (by decide))
    have hsecond : splitEntry 8 0xc000 24 = [⟨0xc000,8⟩,⟨0xc008,8⟩,⟨0xc010,8⟩] := by
      rw [splitEntry_long _ (by decide)]
      exact congrArg _ hrest
    have hpieces : pieces 8 twoEntries =
        [⟨0x9ff0,8⟩,⟨0x9ff8,8⟩,⟨0xc000,8⟩,⟨0xc008,8⟩,⟨0xc010,8⟩] := by
      show splitEntry 8 0x9ff0 16 ++ (splitEntry 8 0xc000 24 ++ []) = _
      rw [hfirst,hsecond]
      rfl
    rw [initRequest_eq ⟨by decide,by decide⟩,hpieces]
    rfl
  have hoverrun := nowait_overrun smallEngine (by decide) hreq
  rcases Option.ne_none_iff_exists'.mp (mt hoverrun.1.mp (by decide)) with ⟨⟨ring,xfers⟩,hsome⟩
  rcases hoverrun.2.2 (by decide) ring xfers hsome with ⟨k,x,hk,hx,hcopy⟩
  exact ⟨⟨ring,xfers,k,x,hsome,hk,hx,hcopy⟩,
    (nowait_overrun smallEngine (by decide) hlonger).1.mpr (by decide)⟩

end Overrun

/-- Transfers with their numbers in the queue. -/
def numbered : ℕ → List Xfer → List (ℕ × Xfer)
  | _, [] => []
  | id, x::xs => (id,x)::numbered (id+1) xs

/-- The transfers of one request among those of all requests. -/
def transfersOf (xss : List (List Xfer)) (j : ℕ) : List (ℕ × Xfer) :=
  numbered (xss.take j).flatten.length (xss.getD j [])

/-- The state that a run leaves a transfer in. -/
def stateOf (outs : List Out) (id : ℕ) : TransferState :=
  ((XdmaEngine.reports outs).find? fun r => r.1 = id).elim .submitted Prod.snd

section Numbers
variable {xs : List Xfer} {state : ℕ → TransferState}

theorem numbered_getElem? (id : ℕ) (xs : List Xfer) (i : ℕ) :
    (numbered id xs)[i]? = xs[i]?.map fun x => (id+i,x) := by
  induction xs generalizing id i with
  | nil => rfl
  | cons x xs ih =>
      cases i with
      | zero => rfl
      | succ i =>
          rw [numbered,List.getElem?_cons_succ,ih,List.getElem?_cons_succ,Nat.add_assoc,
            Nat.add_comm 1 i]

/-- The count is that of the leading completed transfers. -/
theorem xdmaXferCompletion_spec (start : ℕ) (built : List (Xfer × List Copy))
    (hlen : ∀ p ∈ built, p.1.len = total p.2) :
    let n := xdmaXferCompletion state (numbered start (built.map Prod.fst))
    n ≤ total (built.flatMap Prod.snd) ∧
      ((∀ p ∈ numbered start (built.map Prod.fst), state p.1 = .completed) →
        n = total (built.flatMap Prod.snd)) ∧
      ∀ q ∈ (bytes (built.flatMap Prod.snd)).take n, ∃ k p, built[k]? = some p ∧
        state (start+k) = .completed ∧ q ∈ bytes p.2 := by
  induction built generalizing start with
  | nil => exact ⟨le_rfl,fun _ => rfl,fun q hq => absurd hq (by simp [bytes])⟩
  | cons p built ih =>
      rcases ih (start+1) fun x hx => hlen x (List.mem_cons_of_mem _ hx) with ⟨hle,hall,hplaced⟩
      have hp := hlen p List.mem_cons_self
      simp only [List.map_cons,numbered,xdmaXferCompletion,List.flatMap_cons,total_append,
        bytes_append]
      split_ifs with hstate
      · refine ⟨by omega,fun h => ?_,fun q hq => ?_⟩
        · rw [hp,hall fun x hx => h x (List.mem_cons_of_mem _ hx)]
        · rw [hp,← length_bytes,List.take_length_add_append] at hq
          rcases List.mem_append.mp hq with hq | hq
          · exact ⟨0,p,rfl,hstate,hq⟩
          · rcases hplaced q hq with ⟨k,x,hk,hx,hqx⟩
            exact ⟨k+1,x,hk,by rwa [Nat.add_comm k 1,← Nat.add_assoc],hqx⟩
      · exact ⟨Nat.zero_le _,fun h => absurd (h _ List.mem_cons_self) hstate,
          fun q hq => absurd hq (by rw [List.take_zero]; exact List.not_mem_nil)⟩

end Numbers

/-- A history of numbered transfers with their chains, and what the first one
that is not finished has put out. -/
structure Ledger (chain : ℕ → List Copy) (count : ℕ) (history : List Entry) (tail : List Out) :
    Prop where
  entry : ∀ i e, history[i]? = some e → e.transfer.id = i ∧ i < count ∧
    (chain i).length ≤ e.transfer.descNum.toNat
  tail : ∃ lost k faulted, tail = [] ∨
    history.length < count ∧ tail = XdmaEngine.attempt history.length lost k faulted

section History
variable {chain : ℕ → List Copy} {count : ℕ} {history : List Entry} {tail outs : List Out}
  {source target target' : Memory}

theorem Ledger.about_tail (h : Ledger chain count history tail) {o : Out} (ho : o ∈ tail) :
    about o = history.length ∧ history.length < count := by
  rcases h.tail with ⟨lost,k,faulted,rfl | ⟨hlt,rfl⟩⟩
  · exact absurd ho List.not_mem_nil
  · exact ⟨about_attempt ho,hlt⟩

theorem Ledger.reports (h : Ledger chain count history tail)
    (houts : outs = history.flatMap Entry.outs ++ tail) :
    XdmaEngine.reports outs = history.map fun e => (e.transfer.id,e.state) := by
  have htail : XdmaEngine.reports tail = [] := by
    rcases h.tail with ⟨lost,k,faulted,rfl | ⟨-,rfl⟩⟩
    · rfl
    · exact reports_attempt _ _ _ _
  rw [houts,XdmaEngine.reports_append,htail,List.append_nil]
  clear h houts htail
  induction history with
  | nil => rfl
  | cons e history ih =>
      rw [List.flatMap_cons,XdmaEngine.reports_append,reports_outs,ih]
      rfl

theorem Ledger.completed (h : Ledger chain count history tail)
    (houts : outs = history.flatMap Entry.outs ++ tail) {i : ℕ}
    (hstate : stateOf outs i = .completed) :
    ∃ e, history[i]? = some e ∧ e.state = .completed := by
  rw [stateOf,h.reports houts] at hstate
  cases hfind : (history.map fun e => (e.transfer.id,e.state)).find? fun r => r.1 = i with
  | none =>
      rw [hfind] at hstate
      contradiction
  | some r =>
      rw [hfind] at hstate
      have hid : r.1 = i := by simpa using List.find?_some hfind
      rcases List.mem_map.mp (List.mem_of_find?_eq_some hfind) with ⟨e,he,rfl⟩
      rcases List.mem_iff_getElem?.mp he with ⟨k,hk⟩
      have hki : k = i := (h.entry k e hk).1.symm.trans hid
      exact ⟨e,hki ▸ hk,hstate⟩

theorem Ledger.about_lt (h : Ledger chain count history tail)
    (houts : outs = history.flatMap Entry.outs ++ tail) {o : Out} (ho : o ∈ outs) :
    about o < count := by
  rw [houts] at ho
  rcases List.mem_append.mp ho with ho | ho
  · rcases List.mem_flatMap.mp ho with ⟨e,he,ho⟩
    rcases List.mem_iff_getElem?.mp he with ⟨k,hk⟩
    have hentry := h.entry k e hk
    rw [about_outs ho,hentry.1]
    exact hentry.2.1
  · rw [(h.about_tail ho).1]
    exact (h.about_tail ho).2

theorem Ledger.about_later (h : Ledger chain count history tail) {before after : List Entry}
    {e : Entry} (hsplit : history = before ++ e::after) {o : Out}
    (ho : o ∈ after.flatMap Entry.outs ++ tail) : about o ≠ before.length := by
  rcases List.mem_append.mp ho with ho | ho
  · rcases List.mem_flatMap.mp ho with ⟨x,hx,ho⟩
    rcases List.mem_iff_getElem?.mp hx with ⟨k,hk⟩
    have hget : history[before.length+(k+1)]? = some x := by
      rw [hsplit,List.getElem?_append_right (Nat.le_add_right _ _),Nat.add_sub_cancel_left,
        List.getElem?_cons_succ,hk]
    rw [about_outs ho,(h.entry _ x hget).1]
    omega
  · rw [(h.about_tail ho).1,hsplit,List.length_append,List.length_cons]
    omega

theorem targets_disjoint
    (hnodup : ((List.range count).flatMap fun i => targets (chain i)).Nodup) {i j : ℕ}
    (hi : i < count) (hj : j < count) (hij : i ≠ j) {a : BitVec 64}
    (ha : a ∈ targets (chain i)) : a ∉ targets (chain j) := by
  have hsymm : Std.Symm (Function.onFun List.Disjoint fun i => targets (chain i)) :=
    ⟨fun _ _ h => List.Disjoint.symm h⟩
  have hdisjoint := (List.nodup_flatMap.mp hnodup).2.forall (List.mem_range.mpr hi)
    (List.mem_range.mpr hj) hij
  exact fun ha' => hdisjoint ha ha'

/-- What a completed transfer has moved stays where it is. -/
theorem Ledger.placed {pollMode : Bool} (h : Ledger chain count history tail)
    (houts : outs = history.flatMap Entry.outs ++ tail) (hsound : ∀ e ∈ history, e.Sound pollMode)
    (hnodup : ((List.range count).flatMap fun i => targets (chain i)).Nodup)
    (heffect : Effect chain source target outs target') {i : ℕ}
    (hstate : stateOf outs i = .completed) {q : BitVec 64 × BitVec 64}
    (hq : q ∈ bytes (chain i)) : target' q.2 = source q.1 := by
  rcases h.completed houts hstate with ⟨e,hget,hcompleted⟩
  rcases h.entry i e hget with ⟨hid,hlt,hlength⟩
  have hi := (List.getElem?_eq_some_iff.mp hget).1
  have hsplit : history = history.take i ++ e::history.drop (i+1) := by
    rw [← (List.getElem?_eq_some_iff.mp hget).2,← List.drop_eq_getElem_cons hi,
      List.take_append_drop]
  have hbefore : (history.take i).length = i := List.length_take_of_le hi.le
  have htarget : q.2 ∈ targets (chain i) := List.mem_map_of_mem hq
  rw [houts,hsplit,List.flatMap_append,List.flatMap_cons,List.append_assoc,List.append_assoc]
    at heffect
  rcases heffect.append with ⟨u,-,hrest⟩
  rcases hrest.append with ⟨v,hentry,hlater⟩
  have hv := hentry.entry (hsound e (List.mem_of_getElem? hget)) (by rwa [hid])
  rw [if_pos hcompleted,hid] at hv
  have hstays : target' q.2 = v q.2 := by
    apply hlater.outside
    intro o ho
    have hne := h.about_later hsplit ho
    rw [hbefore] at hne
    apply targets_disjoint hnodup hlt (h.about_lt houts _) hne.symm htarget
    rw [houts,hsplit,List.flatMap_append,List.flatMap_cons,List.append_assoc,List.append_assoc]
    exact List.mem_append_right _ (List.mem_append_right _ ho)
  rw [hstays,hv]
  exact copyAll_target source u ((List.nodup_flatMap.mp hnodup).1 i (List.mem_range.mpr hlt)) hq

theorem queue_number {ts : List Transfer} {xs : List Xfer}
    (h : ts.map (fun t => (t.id,t.descNum.toNat)) =
      (numbered 0 xs).map fun p => (p.1,p.2.descNum)) {i : ℕ} {t : Transfer}
    (ht : ts[i]? = some t) :
    ∃ x, xs[i]? = some x ∧ t.id = i ∧ t.descNum.toNat = x.descNum := by
  have hi := congrArg (·[i]?) h
  simp only [List.getElem?_map,ht,numbered_getElem?,Option.map_map,Option.map_some] at hi
  rcases Option.map_eq_some_iff.mp hi.symm with ⟨x,hx,heq⟩
  simp only [Function.comp_apply,Nat.zero_add,Prod.mk.injEq] at heq
  exact ⟨x,hx,heq.1.symm,heq.2.symm⟩

theorem ledger_of_run [Ip] {pollMode : Bool} {es : List Event} {s : XdmaEngine.State}
    {xs : List Xfer}
    (hrun : EventMachine.run (calmStep pollMode) XdmaEngine.idle es = some (s,outs))
    (hqueued : (es.flatMap XdmaEngine.queuedBy).map (fun t => (t.id,t.descNum.toNat)) =
      (numbered 0 xs).map fun p => (p.1,p.2.descNum))
    (hchain : ∀ i x, xs[i]? = some x → (chain i).length ≤ x.descNum) :
    ∃ history tail, (∀ e ∈ history, e.Sound pollMode) ∧
      outs = history.flatMap Entry.outs ++ tail ∧ Ledger chain xs.length history tail := by
  rcases XdmaEngine.run_history (XdmaEngine.inv_idle pollMode) hrun with
    ⟨history,tail,hsound,houts,hinv,hfifo⟩
  have hempty : XdmaEngine.idle.engine.transferList = [] := rfl
  rw [hempty,List.nil_append] at hfifo
  rw [← hfifo] at hqueued
  refine ⟨history,tail,hsound,houts,?_,?_⟩
  · intro i e he
    have hlt := (List.getElem?_eq_some_iff.mp he).1
    have ht : (history.map Entry.transfer ++ s.engine.transferList)[i]? = some e.transfer := by
      rw [List.getElem?_append_left (by rwa [List.length_map]),List.getElem?_map,he]
      rfl
    rcases queue_number hqueued ht with ⟨x,hx,hid,hnum⟩
    exact ⟨hid,(List.getElem?_eq_some_iff.mp hx).1,hnum ▸ hchain i x hx⟩
  · rcases hinv.tail_eq with rfl | ⟨t,rest,lost,executed,faulted,hlist,-,htail⟩
    · exact ⟨0,0,false,.inl rfl⟩
    · have ht : (history.map Entry.transfer ++ s.engine.transferList)[history.length]? =
          some t := by
        rw [List.getElem?_append_right (by rw [List.length_map]),List.length_map,Nat.sub_self,
          hlist]
        rfl
      rcases queue_number hqueued ht with ⟨x,hx,hid,-⟩
      exact ⟨lost,executed,faulted,.inr ⟨(List.getElem?_eq_some_iff.mp hx).1,by rw [htail,hid]⟩⟩

end History

section Requests
variable {descBlenMax : ℕ} [NeZero descBlenMax]

/-- The addresses of a request: where its bytes come from and where they go. -/
def moves (c : Channel) (call : List Sg × BitVec 64) : List (BitVec 64 × BitVec 64) :=
  pairs c call.2 (addresses call.1)

/-- Requests that were submitted to an idle engine one after the other, and the ring that
the last submission leaves. What the engine and the service have done in between is free. -/
structure Session [Ip] (descBlenMax : ℕ) [NeZero descBlenMax] (pollMode : Bool) (e : Engine c)
    (calls : List (List Sg × BitVec 64)) (reqs : List Request) (ring : Engine c)
    (xfers : List (List Xfer)) (outs : List Out) (source target target' : Memory) : Prop where
  init : List.Forall₂ (fun call req => initRequest descBlenMax call.1 call.2 = some req) calls reqs
  submitted : nowaitAll e reqs = some (ring,xfers)
  run : ∃ es s, EventMachine.run (calmStep pollMode) XdmaEngine.idle es = some (s,outs) ∧
    (es.flatMap XdmaEngine.queuedBy).map (fun t => (t.id,t.descNum.toNat)) =
      (numbered 0 xfers.flatten).map fun p => (p.1,p.2.descNum)
  effect : ∃ chain, Effect chain source target outs target' ∧
    ∀ i x, xfers.flatten[i]? = some x → Chain ring.fetch x.descBus (chain i)

theorem copies_init (hinc : c.nonIncrAddr = false) {sgl : List Sg} {epAddr : BitVec 64}
    {req : Request} (h : initRequest descBlenMax sgl epAddr = some req) :
    bytes (copies c req.epAddr (req.sdesc.drop req.swDescIdx)) = moves c (sgl,epAddr) := by
  rw [initRequest_some h,List.drop_zero,bytes_copies hinc,pieces_span]
  rfl

variable {e : Engine c} {calls : List (List Sg × BitVec 64)} {reqs : List Request}

theorem flatten_flatMap (builts : List (List (Xfer × List Copy))) :
    builts.flatten.flatMap Prod.snd = (builts.map (List.flatMap Prod.snd)).flatten := by
  induction builts with
  | nil => rfl
  | cons built builts ih =>
      rw [List.flatten_cons,List.flatMap_append,ih,List.map_cons,List.flatten_cons]

/-- The transfers of all requests with their chains in the ring. -/
theorem built_of_init (hinc : c.nonIncrAddr = false) (hmax : descBlenMax < 2^32)
    (hinit : List.Forall₂ (fun call req => initRequest descBlenMax call.1 call.2 = some req)
      calls reqs)
    (hfit : (reqs.map fun req => req.sdesc.length).sum ≤ c.descMax) :
    ∃ builts : List (List (Xfer × List Copy)),
      builts.map (List.map Prod.fst) = (buildEach e reqs).2 ∧
      builts.map (fun built => bytes (built.flatMap Prod.snd)) = calls.map (moves c) ∧
      ∀ p ∈ builts.flatten, Chain (buildEach e reqs).1.fetch p.1.descBus p.2 ∧
        p.2.length = p.1.descNum ∧ p.1.len = total p.2 % 2^32 := by
  have hlen : ∀ req ∈ reqs, ∀ x ∈ req.sdesc, x.len < 2^32 := by
    clear hfit
    induction hinit with
    | nil => exact fun req hreq => absurd hreq List.not_mem_nil
    | cons hcall _ ih =>
        intro req hreq
        rcases List.mem_cons.mp hreq with rfl | hreq
        · exact len_init hmax hcall
        · exact ih req hreq
  rcases buildEach_builds e reqs hlen with ⟨builts,hbuilds,hxfers,hcopies⟩
  have hslots : slots builts.flatten ≤ c.descMax := by
    rw [hbuilds.slots_eq,flatten_flatMap,hcopies,List.length_flatten,List.map_map]
    refine le_trans (List.sum_le_sum fun req _ => ?_) hfit
    rw [Function.comp_apply,length_copies,List.length_drop]
    exact Nat.sub_le _ _
  refine ⟨builts,hxfers,?_,fun p hp => ⟨?_,(hbuilds.spec p hp).1,(hbuilds.spec p hp).2.2⟩⟩
  · have hbytes := congrArg (List.map bytes) hcopies
    rw [List.map_map,List.map_map] at hbytes
    refine hbytes.trans ?_
    clear hbytes hcopies hxfers hbuilds hslots hlen hfit builts
    induction hinit with
    | nil => rfl
    | cons hcall _ ih =>
        rw [List.map_cons,List.map_cons,ih,Function.comp_apply,copies_init hinc hcall]
  · exact hbuilds.holds hslots p hp _ fun _ _ => rfl

theorem targets_flatMap {A : Type} (xs : List A) (f : A → List Copy) :
    targets (xs.flatMap f) = xs.flatMap fun x => targets (f x) := by
  induction xs with
  | nil => rfl
  | cons x xs ih =>
      rw [List.flatMap_cons,List.flatMap_cons,← ih,targets,bytes_append,List.map_append]
      rfl

theorem targets_chains {builts : List (List (Xfer × List Copy))} {chain : ℕ → List Copy}
    (hmoves : builts.map (fun built => bytes (built.flatMap Prod.snd)) = calls.map (moves c))
    (hchain : ∀ i p, builts.flatten[i]? = some p → chain i = p.2) :
    ((List.range builts.flatten.length).flatMap fun i => targets (chain i)) =
      calls.flatMap fun call => (moves c call).map Prod.snd := by
  have hmap : (List.range builts.flatten.length).map chain = builts.flatten.map Prod.snd := by
    apply List.ext_getElem?
    intro i
    rw [List.getElem?_map,List.getElem?_map]
    by_cases hi : i < builts.flatten.length
    · rw [List.getElem?_range hi,List.getElem?_eq_getElem hi]
      exact congrArg some (hchain i _ (List.getElem?_eq_getElem hi))
    · rw [List.getElem?_eq_none (by rw [List.length_range]; omega),
        List.getElem?_eq_none (by omega)]
      rfl
  have hleft : ((List.range builts.flatten.length).flatMap fun i => targets (chain i)) =
      builts.flatten.flatMap fun p => targets p.2 := by
    have h := congrArg (List.flatMap targets) hmap
    rwa [List.flatMap_map,List.flatMap_map] at h
  have hright := congrArg (List.flatMap (List.map Prod.snd)) hmoves
  rw [List.flatMap_map,List.flatMap_map] at hright
  rw [hleft,← hright,← targets_flatMap,flatten_flatMap]
  clear hleft hright hmap hmoves hchain
  induction builts with
  | nil => rfl
  | cons built builts ih =>
      rw [List.map_cons,List.flatten_cons,List.flatMap_cons,← ih,targets,bytes_append,
        List.map_append]
      rfl

theorem flatten_getElem? {A : Type} {xss : List (List A)} {j : ℕ} {xs : List A}
    (hj : xss[j]? = some xs) {k : ℕ} {x : A} (hk : xs[k]? = some x) :
    xss.flatten[(xss.take j).flatten.length + k]? = some x := by
  induction xss generalizing j with
  | nil => contradiction
  | cons ys xss ih =>
      cases j with
      | zero =>
          cases hj
          rw [List.take_zero,List.flatten_nil,List.length_nil,Nat.zero_add,List.flatten_cons,
            List.getElem?_append_left (List.getElem?_eq_some_iff.mp hk).1]
          exact hk
      | succ j =>
          rw [List.take_succ_cons,List.flatten_cons,List.flatten_cons,List.length_append,
            Nat.add_assoc,List.getElem?_append_right (Nat.le_add_right _ _),
            Nat.add_sub_cancel_left]
          exact ih hj

/-- The transfers of a session, each with its chain, and the history of the engine that was
given them. -/
theorem Session.ledger [Ip] {pollMode : Bool} {ring : Engine c} {xferss : List (List Xfer)}
    {outs : List Out} {source target target' : Memory}
    (h : Session descBlenMax pollMode e calls reqs ring xferss outs source target target')
    (hinc : c.nonIncrAddr = false) (hmax : descBlenMax < 2^32)
    (hfit : (reqs.map fun req => req.sdesc.length).sum ≤ c.descMax) :
    ∃ (builts : List (List (Xfer × List Copy))) (chain : ℕ → List Copy) (history : List Entry)
      (tail : List Out), builts.map (List.map Prod.fst) = xferss ∧
      builts.map (fun built => bytes (built.flatMap Prod.snd)) = calls.map (moves c) ∧
      (∀ p ∈ builts.flatten, p.1.len = total p.2 % 2^32) ∧
      (∀ i p, builts.flatten[i]? = some p → chain i = p.2) ∧
      Effect chain source target outs target' ∧ (∀ x ∈ history, x.Sound pollMode) ∧
      outs = history.flatMap Entry.outs ++ tail ∧
      Ledger chain builts.flatten.length history tail := by
  obtain ⟨rfl,rfl⟩ := Prod.mk.inj (nowaitAll_some h.submitted)
  rcases built_of_init (e := e) hinc hmax h.init hfit with ⟨builts,hxfers,hmoves,hspec⟩
  rcases h.run with ⟨es,s,hrun,hqueued⟩
  rcases h.effect with ⟨chain,heffect,hchain⟩
  have hxs : (buildEach e reqs).2.flatten = builts.flatten.map Prod.fst := by
    rw [← hxfers,List.map_flatten]
  have hchain' : ∀ i p, builts.flatten[i]? = some p → chain i = p.2 := by
    intro i p hp
    have hx : (buildEach e reqs).2.flatten[i]? = some p.1 := by
      rw [hxs,List.getElem?_map,hp]
      rfl
    exact (hchain i p.1 hx).unique (hspec p (List.mem_of_getElem? hp)).1
  have hnum : ∀ i x, (buildEach e reqs).2.flatten[i]? = some x → (chain i).length ≤ x.descNum := by
    intro i x hx
    rw [hxs,List.getElem?_map] at hx
    rcases Option.map_eq_some_iff.mp hx with ⟨p,hp,rfl⟩
    rw [hchain' i p hp]
    exact (hspec p (List.mem_of_getElem? hp)).2.1.le
  rcases ledger_of_run hrun hqueued hnum with ⟨history,tail,hsound,houts,hledger⟩
  rw [hxs,List.length_map] at hledger
  exact ⟨builts,chain,history,tail,hxfers,hmoves,fun p hp => (hspec p hp).2.2,hchain',heffect,
    hsound,houts,hledger⟩

theorem transfersOf_built {builts : List (List (Xfer × List Copy))} {j : ℕ}
    {built : List (Xfer × List Copy)} (h : builts[j]? = some built) :
    transfersOf (builts.map (List.map Prod.fst)) j =
      numbered (builts.take j).flatten.length (built.map Prod.fst) := by
  rw [transfersOf,← List.map_take,← List.map_flatten,List.length_map,List.getD,
    List.getElem?_map,h]
  rfl

/-- In a request of less than 2^32 bytes no length has wrapped around. -/
theorem len_of_total {built : List (Xfer × List Copy)}
    (hlen : ∀ p ∈ built, p.1.len = total p.2 % 2^32)
    (htotal : total (built.flatMap Prod.snd) < 2^32) : ∀ p ∈ built, p.1.len = total p.2 := by
  intro p hp
  have hle : total p.2 ≤ total (built.flatMap Prod.snd) := by
    rcases List.append_of_mem hp with ⟨xs,ys,rfl⟩
    rw [List.flatMap_append,List.flatMap_cons,total_append,total_append]
    omega
  rw [hlen p hp,Nat.mod_eq_of_lt (by omega)]

/-- The bytes that `xdma_xfer_completion` counts for a request, from its first one on,
are where they belong, and no other byte has changed but those asked for: as
long as all pieces under way fit in the ring, with any errors and services. -/
theorem nowait_moves [Ip] {pollMode : Bool} {ring : Engine c} {xferss : List (List Xfer)}
    {outs : List Out} {source target target' : Memory}
    (hsession : Session descBlenMax pollMode e calls reqs ring xferss outs source target target')
    (hinc : c.nonIncrAddr = false) (hmax : descBlenMax < 2^32)
    (hfit : (reqs.map fun req => req.sdesc.length).sum ≤ c.descMax)
    (htotal : ∀ call ∈ calls, (addresses call.1).length < 2^32)
    (hnodup : (calls.flatMap fun call => (moves c call).map Prod.snd).Nodup) :
    (∀ a ∉ calls.flatMap fun call => (moves c call).map Prod.snd, target' a = target a) ∧
      ∀ j call, calls[j]? = some call →
        let xfers := transfersOf xferss j
        let n := xdmaXferCompletion (stateOf outs) xfers
        n ≤ (addresses call.1).length ∧
          ((∀ p ∈ xfers, stateOf outs p.1 = .completed) → n = (addresses call.1).length) ∧
          ∀ q ∈ (moves c call).take n, target' q.2 = source q.1 := by
  rcases hsession.ledger hinc hmax hfit with
    ⟨builts,chain,history,tail,rfl,hmoves,hlen,hchain,heffect,hsound,houts,hledger⟩
  rw [← targets_chains (c := c) hmoves hchain] at hnodup ⊢
  refine ⟨fun a ha => heffect.outside fun o ho hmem => ?_,fun j call hcall => ?_⟩
  · exact ha (List.mem_flatMap.mpr
      ⟨about o,List.mem_range.mpr (hledger.about_lt houts ho),hmem⟩)
  have hbuilt : ∃ built, builts[j]? = some built ∧
      bytes (built.flatMap Prod.snd) = moves c call := by
    have hj := congrArg (·[j]?) hmoves
    simp only [List.getElem?_map,hcall,Option.map_some] at hj
    exact Option.map_eq_some_iff.mp hj
  rcases hbuilt with ⟨built,hbuilt,hbytes⟩
  have hlength : total (built.flatMap Prod.snd) = (addresses call.1).length := by
    rw [← length_bytes,hbytes,moves,length_pairs]
  have hfits := htotal call (List.mem_of_getElem? hcall)
  have hexact := len_of_total
    (fun p hp => hlen p (List.mem_flatten.mpr ⟨built,List.mem_of_getElem? hbuilt,hp⟩))
    (by rwa [hlength])
  have hcompletion := @xdmaXferCompletion_spec (stateOf outs)
    (builts.take j).flatten.length built hexact
  rw [← transfersOf_built hbuilt,hlength,hbytes] at hcompletion
  refine ⟨hcompletion.1,hcompletion.2.1,fun q hq => ?_⟩
  rcases hcompletion.2.2 q hq with ⟨k,p,hk,hstate,hqp⟩
  apply hledger.placed houts hsound hnodup heffect hstate
  rwa [hchain _ p (flatten_getElem? hbuilt hk)]

end Requests

/-- Two pieces behind the last slot but one: a transfer of its own for each of them. -/
def twoPieces : Request := ⟨[⟨0x9ff0,16⟩,⟨0xc000,24⟩],0x40,40,0⟩

theorem init_twoPieces : initRequest 32 twoEntries 0x40 = some twoPieces := by
  have hfirst : splitEntry 32 0x9ff0 16 = [⟨0x9ff0,16⟩] :=
    splitEntry_short _ (by decide) (by decide)
  have hsecond : splitEntry 32 0xc000 24 = [⟨0xc000,24⟩] :=
    splitEntry_short _ (by decide) (by decide)
  have hpieces : pieces 32 twoEntries = [⟨0x9ff0,16⟩,⟨0xc000,24⟩] := by
    show splitEntry 32 0x9ff0 16 ++ (splitEntry 32 0xc000 24 ++ []) = _
    rw [hfirst,hsecond]
    rfl
  rw [initRequest_eq ⟨by decide,by decide⟩,hpieces]
  rfl

theorem buildAll_two : ∃ x y, (buildAll smallEngine twoPieces).2 = [x,y] ∧ x.descNum = 1 ∧
    y.descNum = 1 := by
  rw [buildAll_more (by decide),buildAll_more (by decide),buildAll_done (by decide)]
  exact ⟨_,_,rfl,by decide,by decide⟩

theorem nowaitAll_two : nowaitAll smallEngine [twoPieces] =
    some (buildEach smallEngine [twoPieces]) := by
  rcases buildAll_two with ⟨x,y,hxy,-,-⟩
  have hloop : nowaitLoop tferMax smallEngine twoPieces =
      some (buildAll smallEngine twoPieces) := by
    rw [nowaitLoop_eq,if_pos (by rw [hxy]; exact le_rfl)]
  rw [nowaitAll,hloop]
  rfl

def twoEvents : List Event :=
  [.queue { XdmaEngine.shortTransfer with id := 0 },.queue XdmaEngine.shortTransfer,.exec,.idle,
    .service,.exec,.idle,.service]

def twoOuts : List Out := [.desc 0 0,.done 0 .completed,.desc 1 0,.done 1 .completed]

local instance : Ip := .immediate

theorem run_two : ∃ s, EventMachine.run (calmStep false) XdmaEngine.idle twoEvents =
    some (s,twoOuts) :=
  ⟨_,rfl⟩

theorem session_two (source : Memory) : ∃ target', Session 32 false smallEngine
    [(twoEntries,0x40)] [twoPieces] (buildEach smallEngine [twoPieces]).1
    (buildEach smallEngine [twoPieces]).2 twoOuts source (fun _ => 0) target' := by
  have hinit : List.Forall₂ (fun (call : List Sg × BitVec 64) req =>
      initRequest 32 call.1 call.2 = some req) [(twoEntries,0x40)] [twoPieces] :=
    .cons init_twoPieces .nil
  rcases built_of_init (e := smallEngine) rfl (by decide) hinit (by decide) with
    ⟨builts,hxfers,-,hspec⟩
  have hflat : (buildEach smallEngine [twoPieces]).2.flatten =
      (buildAll smallEngine twoPieces).2 := List.append_nil _
  rcases buildAll_two with ⟨x,y,hxy,hx,hy⟩
  rw [hxy] at hflat
  have hxs : builts.flatten.map Prod.fst = [x,y] := by
    rw [← hflat,← hxfers,List.map_flatten]
  rcases run_two with ⟨s,hrun⟩
  have hchains : ∀ id < 2, 0 < ((builts.flatten[id]?.map Prod.snd).getD []).length := by
    intro id hid
    have hlt : id < builts.flatten.length := by
      have hlength := congrArg List.length hxs
      rw [List.length_map] at hlength
      rw [hlength]
      exact hid
    have hp := List.getElem_mem hlt
    have hone : builts.flatten[id].1 ∈ [x,y] := by
      rw [← hxs]
      exact List.mem_map_of_mem hp
    rw [List.getElem?_eq_getElem hlt,Option.map_some,Option.getD_some,(hspec _ hp).2.1]
    rcases List.mem_pair.mp hone with heq | heq <;> rw [heq] <;> omega
  have heffect : ∃ target', Effect (fun id => (builts.flatten[id]?.map Prod.snd).getD []) source
      (fun _ => 0) twoOuts target' := by
    apply exists_effect
    intro id k hk
    simp only [twoOuts,List.mem_cons,Out.desc.injEq,reduceCtorEq,List.not_mem_nil,or_false,
      false_or] at hk
    rcases hk with ⟨rfl,rfl⟩ | ⟨rfl,rfl⟩
    · exact hchains 0 (by decide)
    · exact hchains 1 (by decide)
  rcases heffect with ⟨target',heffect⟩
  refine ⟨target',hinit,nowaitAll_two,⟨twoEvents,s,hrun,?_⟩,⟨_,heffect,?_⟩⟩
  · rw [hflat]
    simp only [numbered,List.map_cons,List.map_nil,hx,hy]
    rfl
  · intro i x hx
    rw [hflat,← hxs,List.getElem?_map] at hx
    rcases Option.map_eq_some_iff.mp hx with ⟨p,hp,rfl⟩
    rw [hp]
    exact (hspec p (List.mem_of_getElem? hp)).1

theorem nowait_moves_two : ∃ (ring : Engine smallRing) (xferss : List (List Xfer))
    (target' : Memory), nowaitAll smallEngine [twoPieces] = some (ring,xferss) ∧
      xdmaXferCompletion (stateOf twoOuts) (transfersOf xferss 0) = 40 ∧
      ∀ q ∈ (moves smallRing (twoEntries,0x40)).take 40, target' q.2 = q.1.setWidth 8 := by
  rcases session_two (fun a => a.setWidth 8) with ⟨target',hsession⟩
  have hmoves := (nowait_moves hsession rfl (by decide) (by decide) (by decide) (by decide)).2 0 _
    rfl
  have hxfers : transfersOf (buildEach smallEngine [twoPieces]).2 0 =
      numbered 0 (buildAll smallEngine twoPieces).2 := rfl
  have hcount : xdmaXferCompletion (stateOf twoOuts)
      (transfersOf (buildEach smallEngine [twoPieces]).2 0) = 40 := by
    refine hmoves.2.1 fun p hp => ?_
    rcases buildAll_two with ⟨x,y,hxy,-,-⟩
    rw [hxfers,hxy] at hp
    rcases List.mem_pair.mp hp with rfl | rfl <;> rfl
  have hplaced := hmoves.2.2
  rw [hcount] at hplaced
  exact ⟨_,_,target',nowaitAll_two,hcount,hplaced⟩

end FpgaTest.XdmaAsync
