import FpgaTest.RegisterShadow
import FpgaTest.StreamDelivery

/-!
# The replies to `CLS:GetCount`

A reply is the numeral that `snprintf` makes of the count register, without a
terminator and without a separator: `tcp_write` gets `strlen` bytes. The
conversion is `%d`, so a count from 2^31 on is printed as a negative number.

The replies to the commands of one delivery go out one after the other, and a
client of the stream sees only their concatenation.
-/
namespace FpgaTest.CountReplies
open CString CommandDispatch RegisterShadow

/-- The value of a text of digits. -/
def parseUnsigned (text : List Byte) : Option ℕ :=
  if text ≠ [] ∧ text.all isDigit then some (digitsValue text) else none

/-- The value of digits behind an optional minus sign. -/
def parseSigned : List Byte → Option ℤ
  | [] => none
  | b::bs =>
      if b = 0x2d#8 then (parseUnsigned bs).map fun n => -(n : ℤ)
      else (parseUnsigned (b::bs)).map fun n => (n : ℤ)

/-- The string in `count_reply`. -/
def countReply (count : BitVec 32) : List Byte := snprintf (bytesOf (toString count.toInt))

/-- What `tcp_write` is given, call by call. -/
def written (effects : List Effect) : List (List Byte) :=
  effects.filterMap fun
    | .tcpWrite bytes => some bytes
    | _ => none

/-- The replies to dispatched messages, each with what its surroundings answer. -/
def replies (lib : FloatLib) (g : Globals) (frames : List (List Byte)) (envs : List Env) :
    List (List Byte) :=
  let messages := (frames.zip envs).map fun x => Message.mk x.2 x.1 0
  written (messages.foldl (turn lib) (g,[])).2

/-- One answer of the surroundings for each message, with room for its reply. -/
structure Serves (frames : List (List Byte)) (envs : List Env) : Prop where
  length : envs.length = frames.length
  room : ∀ env ∈ envs, (countReply env.pulseCount).length ≤ env.sndbuf

section Numerals

theorem bytesOf_toString (n : ℕ) :
    bytesOf (toString n) = (Nat.toDigits 10 n).map fun c => BitVec.ofNat 8 c.toNat := by
  rw [bytesOf,Nat.toString_eq_repr,Nat.toList_repr]

theorem toNat_digit {c : Char} (h : c.isDigit = true) :
    (BitVec.ofNat 8 c.toNat).toNat = c.toNat ∧ 0x30 ≤ c.toNat ∧ c.toNat ≤ 0x39 := by
  have hc : 0x30 ≤ c.toNat ∧ c.toNat ≤ 0x39 := by
    rw [Char.isDigit,Bool.and_eq_true,decide_eq_true_iff,decide_eq_true_iff] at h
    exact ⟨UInt32.le_iff_toNat_le.mp h.1,UInt32.le_iff_toNat_le.mp h.2⟩
  refine ⟨?_,hc⟩
  rw [BitVec.toNat_ofNat,Nat.mod_eq_of_lt (by omega)]

theorem digitsValue_map {cs : List Char} (h : ∀ c ∈ cs, c.isDigit = true) :
    digitsValue (cs.map fun c => BitVec.ofNat 8 c.toNat) = Nat.ofDigitChars 10 cs 0 := by
  rw [digitsValue,Nat.ofDigitChars,List.foldl_map]
  apply List.foldl_ext
  intro v c hc
  rw [(toNat_digit (h c hc)).1]
  rfl

theorem isDigit_of_mem_numeral {n : ℕ} {b : Byte} (h : b ∈ bytesOf (toString n)) :
    isDigit b = true := by
  rw [bytesOf_toString,List.mem_map] at h
  rcases h with ⟨c,hc,rfl⟩
  have hd := toNat_digit (Nat.isDigit_of_mem_toDigits (by decide) (by decide) hc)
  rw [isDigit,decide_eq_true_iff,hd.1]
  exact hd.2

theorem numeral_ne_nil (n : ℕ) : bytesOf (toString n) ≠ [] := by
  rw [bytesOf_toString]
  exact fun h => Nat.toDigits_ne_nil (List.map_eq_nil_iff.mp h)

theorem parseUnsigned_numeral (n : ℕ) : parseUnsigned (bytesOf (toString n)) = some n := by
  have hall : (bytesOf (toString n)).all isDigit = true :=
    List.all_eq_true.mpr fun b hb => isDigit_of_mem_numeral hb
  rw [parseUnsigned,if_pos ⟨numeral_ne_nil n,hall⟩,bytesOf_toString,digitsValue_map]
  · rw [Nat.ofDigitChars_ten_toDigits]
  · intro c hc
    exact Nat.isDigit_of_mem_toDigits (by decide) (by decide) hc

theorem length_numeral_le {n k : ℕ} (hk : 0 < k) (h : n < 10^k) :
    (bytesOf (toString n)).length ≤ k := by
  rw [bytesOf_toString,List.length_map]
  exact (Nat.length_toDigits_le_iff (by decide) hk).mpr h

theorem bytesOf_natCast (n : ℕ) : bytesOf (toString (n : ℤ)) = bytesOf (toString n) := rfl

theorem bytesOf_negSucc (n : ℕ) :
    bytesOf (toString (Int.negSucc n)) = 0x2d#8 :: bytesOf (toString (n+1)) := by
  have h : toString (Int.negSucc n) = "-" ++ toString (n+1) := rfl
  rw [h,bytesOf,String.toList_append,List.map_append]
  rfl

theorem parseSigned_numeral (i : ℤ) : parseSigned (bytesOf (toString i)) = some i := by
  cases i with
  | ofNat n =>
      have hparse := parseUnsigned_numeral n
      rw [Int.ofNat_eq_natCast,bytesOf_natCast]
      cases hn : bytesOf (toString n) with
      | nil => exact absurd hn (numeral_ne_nil n)
      | cons b bs =>
          have hb : isDigit b = true := isDigit_of_mem_numeral (hn ▸ List.mem_cons_self)
          have hne : b ≠ 0x2d#8 := by
            rintro rfl
            exact absurd hb (by decide)
          rw [hn] at hparse
          rw [parseSigned,if_neg hne,hparse]
          rfl
  | negSucc n =>
      rw [bytesOf_negSucc,parseSigned,if_pos rfl,parseUnsigned_numeral]
      rfl

end Numerals

theorem countReply_eq (count : BitVec 32) : countReply count = bytesOf (toString count.toInt) := by
  have hle : (bytesOf (toString count.toInt)).length ≤ 11 := by
    have hlo := BitVec.le_toInt count
    have hhi := BitVec.toInt_lt (x := count)
    cases hi : count.toInt with
    | ofNat n =>
        rw [hi,Int.ofNat_eq_natCast] at hhi
        rw [Int.ofNat_eq_natCast,bytesOf_natCast]
        exact length_numeral_le (by decide) (by norm_num at hhi ⊢; omega)
    | negSucc n =>
        rw [hi] at hlo
        rw [bytesOf_negSucc,List.length_cons]
        exact Nat.succ_le_succ (length_numeral_le (by decide) (by norm_num at hlo ⊢; omega))
  rw [countReply,snprintf,List.take_of_length_le (by omega)]

theorem countReply_injective : Function.Injective countReply := by
  intro a b h
  rw [countReply_eq,countReply_eq] at h
  apply BitVec.toInt_inj.mp
  apply Option.some_injective
  rw [← parseSigned_numeral,← parseSigned_numeral,h]

theorem countReply_unsigned_iff (count : BitVec 32) :
    countReply count = bytesOf (toString count.toNat) ↔ count.toNat < 2^31 := by
  rw [countReply_eq]
  constructor
  · intro h
    have hparse := parseSigned_numeral count.toInt
    rw [h,← bytesOf_natCast,parseSigned_numeral,Option.some_inj] at hparse
    have hlt := BitVec.toInt_lt (x := count)
    norm_num at hlt
    omega
  · intro h
    rw [BitVec.toInt_eq_toNat_of_lt (by omega)]
    rfl

section Session
variable (lib : FloatLib) (g : Globals)

theorem written_append (es fs : List Effect) : written (es ++ fs) = written es ++ written fs := by
  simp [written]

theorem process_getCount {m : Message} (hlen : m.frame.length = CommandServer.messageSize)
    (hname : Names .getCount m.frame)
    (hroom : (countReply m.env.pulseCount).length ≤ m.env.sndbuf) :
    process lib g m = (g,[.xilIn32 saxiPulseCountOffset,.tcpWrite (countReply m.env.pulseCount),
      .tcpOutput]) := by
  rw [process_running lib g m hlen ((commandOf_eq_some hlen .getCount).mpr hname),outcome,
    ← countReply,sendReply,if_pos hroom]

theorem written_turns {ms : List Message} (sent : List Effect)
    (hlen : ∀ m ∈ ms, m.frame.length = CommandServer.messageSize)
    (hname : ∀ m ∈ ms, Names .getCount m.frame)
    (hroom : ∀ m ∈ ms, (countReply m.env.pulseCount).length ≤ m.env.sndbuf) :
    written (ms.foldl (turn lib) (g,sent)).2 =
      written sent ++ ms.map fun m => countReply m.env.pulseCount := by
  induction ms generalizing sent with
  | nil => simp
  | cons m ms ih =>
      have hm := process_getCount lib g (hlen m (by simp)) (hname m (by simp)) (hroom m (by simp))
      rw [List.foldl_cons,turn,hm,ih _ (fun x hx => hlen x (by simp [hx]))
        (fun x hx => hname x (by simp [hx])) (fun x hx => hroom x (by simp [hx])),written_append,
        List.map_cons,List.append_assoc]
      rfl

theorem replies_eq {frames : List (List Byte)} {envs : List Env}
    (hlen : ∀ frame ∈ frames, frame.length = CommandServer.messageSize)
    (hname : ∀ frame ∈ frames, Names .getCount frame) (h : Serves frames envs) :
    replies lib g frames envs = (envs.map Env.pulseCount).map countReply := by
  have hmem : ∀ m ∈ (frames.zip envs).map fun x => Message.mk x.2 x.1 0,
      m.frame ∈ frames ∧ m.env ∈ envs := by
    intro m hm
    rw [List.mem_map] at hm
    rcases hm with ⟨x,hx,rfl⟩
    exact List.of_mem_zip hx
  have henvs : (frames.zip envs).map Prod.snd = envs := List.map_snd_zip h.length.le
  rw [replies,written_turns lib g [] (fun m hm => hlen _ (hmem m hm).1)
    (fun m hm => hname _ (hmem m hm).1) (fun m hm => h.room _ (hmem m hm).2)]
  nth_rewrite 2 [← henvs]
  simp only [List.map_map]
  rfl

end Session

theorem length_delivered {tpcb : CommandServer.Pcb} {s t : CommandServer.Server}
    {ps : List CommandServer.Pbuf} {calls : List CommandServer.Call}
    (hs : s.recvLen < CommandServer.messageSize)
    (h : CommandServer.deliver tpcb s ps = some (t,calls)) :
    ∀ frame ∈ CommandServer.dispatched calls, frame.length = CommandServer.messageSize := by
  induction ps generalizing s calls with
  | nil =>
      cases h
      simp [CommandServer.dispatched]
  | cons p ps ih =>
      rcases EventMachine.run_cons_iff.mp h with ⟨u,a,b,hstep,hrun,rfl⟩
      intro frame hframe
      rw [CommandServer.dispatched_append,List.mem_append] at hframe
      rcases hframe with hframe | hframe
      · exact length_dispatched (hs.le.trans (by decide)) hstep frame hframe
      · exact ih (CommandServer.recvCallback_recvLen hs hstep) hrun frame hframe

theorem countReply_collision :
    countReply 1 ++ countReply 23 = countReply 12 ++ countReply 3 := by
  decide

/-- Surroundings that answer with these counts and have room for every reply. -/
def answering (counts : List (BitVec 32)) : List Env := counts.map fun count => ⟨count,none,31⟩

theorem serves_answering {frames : List (List Byte)} {counts : List (BitVec 32)}
    (h : counts.length = frames.length) : Serves frames (answering counts) := by
  constructor
  · rw [answering,List.length_map,h]
  · intro env henv
    rcases List.mem_map.mp henv with ⟨count,-,rfl⟩
    exact List.length_take_le 31 _

theorem answering_pulseCount (counts : List (BitVec 32)) :
    (answering counts).map Env.pulseCount = counts := by
  rw [answering,List.map_map]
  exact List.map_id counts

/-- Different counts give different streams of replies. -/
def Decodable (lib : FloatLib) (g : Globals) (frames : List (List Byte)) : Prop :=
  ∀ envs envs', Serves frames envs → Serves frames envs' →
    envs.map Env.pulseCount ≠ envs'.map Env.pulseCount →
    (replies lib g frames envs).flatten ≠ (replies lib g frames envs').flatten

/-- Only a single reply can be told apart without the boundaries. -/
theorem decodable_iff (lib : FloatLib) (g : Globals) {frames : List (List Byte)}
    (hlen : ∀ frame ∈ frames, frame.length = CommandServer.messageSize)
    (hname : ∀ frame ∈ frames, Names .getCount frame) :
    Decodable lib g frames ↔ frames.length ≤ 1 := by
  constructor
  · intro h
    by_contra hmany
    obtain ⟨k,hk⟩ : ∃ k, frames.length = k+2 := ⟨frames.length - 2,by omega⟩
    -- the rest of the replies is the same on both sides
    have hleft : Serves frames (answering (1::23::List.replicate k 0)) :=
      serves_answering (by simp [hk])
    have hright : Serves frames (answering (12::3::List.replicate k 0)) :=
      serves_answering (by simp [hk])
    apply h _ _ hleft hright
    · simp only [answering_pulseCount]
      simp
    · rw [replies_eq lib g hlen hname hleft,replies_eq lib g hlen hname hright,
        answering_pulseCount,answering_pulseCount]
      simp only [List.map_cons,List.flatten_cons,← List.append_assoc,countReply_collision]
  · intro hone envs envs' he he' hne heq
    rw [replies_eq lib g hlen hname he,replies_eq lib g hlen hname he'] at heq
    have hl := he.length.trans he'.length.symm
    have hone' : envs.length ≤ 1 := he.length.trans_le hone
    match envs, envs' with
    | [], [] => exact hne rfl
    | [a], [b] =>
        apply hne
        simp only [List.map_cons,List.map_nil,List.flatten_singleton] at heq
        rw [List.map_singleton,List.map_singleton,countReply_injective heq]
    | [], b::bs => simp at hl
    | a::as, [] => simp at hl
    | a::a'::as, _ => simp at hone'
    | [a], b::b'::bs => simp at hl

/-- However the commands are cut into segments, different counts are given to
`tcp_write` as different texts, and their concatenations differ if the texts
have the same lengths; for all counts they differ only when at most one command
is answered. -/
theorem stream_decodable_iff (lib : FloatLib) (g : Globals) (tpcb : CommandServer.Pcb)
    (s t : CommandServer.Server) (ps : List CommandServer.Pbuf)
    (calls : List CommandServer.Call) (hs : CommandServer.Reachable s)
    (hrun : CommandServer.deliver tpcb s ps = some (t,calls))
    (hname : ∀ frame ∈ CommandServer.dispatched calls, Names .getCount frame) :
    (∀ envs envs', Serves (CommandServer.dispatched calls) envs →
      Serves (CommandServer.dispatched calls) envs' →
      envs.map Env.pulseCount ≠ envs'.map Env.pulseCount →
      replies lib g (CommandServer.dispatched calls) envs ≠
        replies lib g (CommandServer.dispatched calls) envs' ∧
      ((replies lib g (CommandServer.dispatched calls) envs).map List.length =
          (replies lib g (CommandServer.dispatched calls) envs').map List.length →
        (replies lib g (CommandServer.dispatched calls) envs).flatten ≠
          (replies lib g (CommandServer.dispatched calls) envs').flatten)) ∧
    (Decodable lib g (CommandServer.dispatched calls) ↔
      (CommandServer.dispatched calls).length ≤ 1) := by
  have hlen := length_delivered hs.recvLen_lt hrun
  refine ⟨?_,decodable_iff lib g hlen hname⟩
  intro envs envs' he he' hne
  have hdiff : replies lib g (CommandServer.dispatched calls) envs ≠
      replies lib g (CommandServer.dispatched calls) envs' := by
    rw [replies_eq lib g hlen hname he,replies_eq lib g hlen hname he']
    exact fun h => hne (List.map_injective_iff.mpr countReply_injective h)
  refine ⟨hdiff,?_⟩
  intro hlengths hflat
  exact hdiff (List.eq_iff_flatten_eq.mpr ⟨hflat,hlengths⟩)

/-- Two commands in one segment. -/
def pipelined : CommandServer.Pbuf :=
  StreamDelivery.segment (encode .getCount [] ++ encode .getCount [])

theorem deliver_pipelined : ∃ t calls,
    CommandServer.deliver 1 .start [pipelined] = some (t,calls) ∧
      CommandServer.dispatched calls = [encode .getCount [],encode .getCount []] := by
  have hfit : ∀ p ∈ [pipelined], p.len ≤ CommandServer.bufferSize := by decide
  have hempty : CommandServer.Server.start.recvLen < CommandServer.messageSize := by decide
  obtain ⟨t,calls,hrun,hmsgs,-⟩ := StreamDelivery.deliver_lossless 1 hempty hfit (by decide)
  refine ⟨t,calls,hrun,?_⟩
  rw [hmsgs]
  decide

theorem names_getCount : ∀ frame ∈ [encode .getCount [],encode .getCount []],
    Names .getCount frame := by
  intro frame hframe
  obtain rfl : frame = encode .getCount [] := by simpa using hframe
  exact (names_encode_iff .getCount .getCount (by simp)).mpr rfl

/-- Counts 1, 23 and 12, 3 are told apart by the calls of `tcp_write`. -/
theorem stream_decodable_pipelined : ∃ t calls,
    CommandServer.deliver 1 .start [pipelined] = some (t,calls) ∧
      replies silentLib ⟨0,0⟩ (CommandServer.dispatched calls) (answering [1,23]) ≠
        replies silentLib ⟨0,0⟩ (CommandServer.dispatched calls) (answering [12,3]) ∧
      ¬ Decodable silentLib ⟨0,0⟩ (CommandServer.dispatched calls) := by
  obtain ⟨t,calls,hrun,hmsgs⟩ := deliver_pipelined
  have h := stream_decodable_iff silentLib ⟨0,0⟩ 1 .start t [pipelined] calls .start hrun
    (hmsgs ▸ names_getCount)
  refine ⟨t,calls,hrun,?_,?_⟩
  · have hleft : Serves (CommandServer.dispatched calls) (answering [1,23]) :=
      serves_answering (by rw [hmsgs]; rfl)
    have hright : Serves (CommandServer.dispatched calls) (answering [12,3]) :=
      serves_answering (by rw [hmsgs]; rfl)
    exact (h.1 _ _ hleft hright (by decide)).1
  · rw [h.2,hmsgs]
    decide

/-- Two commands in one segment, counts 1, 23 and 12, 3: both clients read 123. -/
theorem stream_ambiguous : ∃ t calls,
    CommandServer.deliver 1 .start [pipelined] = some (t,calls) ∧
      (∀ frame ∈ CommandServer.dispatched calls, Names .getCount frame) ∧
      Serves (CommandServer.dispatched calls) (answering [1,23]) ∧
      Serves (CommandServer.dispatched calls) (answering [12,3]) ∧
      (answering [1,23]).map Env.pulseCount ≠ (answering [12,3]).map Env.pulseCount ∧
      (replies silentLib ⟨0,0⟩ (CommandServer.dispatched calls) (answering [1,23])).flatten =
        bytesOf "123" ∧
      (replies silentLib ⟨0,0⟩ (CommandServer.dispatched calls) (answering [12,3])).flatten =
        bytesOf "123" := by
  obtain ⟨t,calls,hrun,hmsgs⟩ := deliver_pipelined
  have hlen : ∀ frame ∈ [encode .getCount [],encode .getCount []],
      frame.length = CommandServer.messageSize := by decide
  have hleft : Serves [encode .getCount [],encode .getCount []] (answering [1,23]) :=
    serves_answering rfl
  have hright : Serves [encode .getCount [],encode .getCount []] (answering [12,3]) :=
    serves_answering rfl
  refine ⟨t,calls,hrun,?_⟩
  rw [hmsgs,replies_eq silentLib _ hlen names_getCount hleft,
    replies_eq silentLib _ hlen names_getCount hright]
  exact ⟨names_getCount,hleft,hright,by decide,by decide,by decide⟩

/-- A reply with room in the send buffer is the unsigned numeral of the count,
and reads back as the count, exactly below 2^31: the conversion is `%d`. -/
theorem count_reply_unsigned_iff (lib : FloatLib) (env : Env) (g : Globals) (frame : List Byte)
    (hlen : frame.length = CommandServer.messageSize) (hname : Names .getCount frame)
    (hroom : (countReply env.pulseCount).length ≤ env.sndbuf) :
    ∃ reply, dispatch lib env g frame =
        some (g,[.xilIn32 saxiPulseCountOffset,.tcpWrite reply,.tcpOutput]) ∧
      ((reply = bytesOf (toString env.pulseCount.toNat) ∧ reply.length + 1 ≤ 32 ∧
          parseUnsigned reply = some env.pulseCount.toNat) ↔
        env.pulseCount.toNat < 2^31) := by
  refine ⟨countReply env.pulseCount,?_,?_⟩
  · rw [dispatch_named lib env g hlen hname,handler,← countReply,sendReply,if_pos hroom]
  · rw [countReply_unsigned_iff]
    constructor
    · exact fun h => h.1
    · intro h
      refine ⟨h,Nat.succ_le_succ (List.length_take_le 31 _),?_⟩
      rw [(countReply_unsigned_iff env.pulseCount).mpr h,parseUnsigned_numeral]

/-- The largest count that is sent as it is. -/
theorem count_reply_unsigned_largest : ∃ reply,
    dispatch silentLib ⟨0x7fffffff,none,31⟩ ⟨0,0⟩ (encode .getCount []) =
        some (⟨0,0⟩,[.xilIn32 saxiPulseCountOffset,.tcpWrite reply,.tcpOutput]) ∧
      reply = bytesOf (toString 2147483647) ∧ parseUnsigned reply = some 2147483647 := by
  obtain ⟨reply,hreply,hiff⟩ := count_reply_unsigned_iff silentLib ⟨0x7fffffff,none,31⟩ ⟨0,0⟩
    (encode .getCount []) (by decide) ((names_encode_iff .getCount .getCount (by simp)).mpr rfl)
    (List.length_take_le 31 _)
  have h := hiff.mpr (by decide)
  exact ⟨reply,hreply,h.1,h.2.2⟩

/-- One pulse more is answered with a negative number. -/
theorem count_reply_negative :
    dispatch silentLib ⟨0x80000000,none,31⟩ ⟨0,0⟩ (encode .getCount []) =
        some (⟨0,0⟩,[.xilIn32 saxiPulseCountOffset,.tcpWrite (bytesOf "-2147483648"),
          .tcpOutput]) ∧
      bytesOf "-2147483648" ≠ bytesOf (toString (0x80000000#32).toNat) ∧
      parseUnsigned (bytesOf "-2147483648") ≠ some (0x80000000#32).toNat := by
  refine ⟨?_,by decide,by decide⟩
  rw [dispatch_named silentLib _ _ (by decide)
    ((names_encode_iff .getCount .getCount (by simp)).mpr rfl)]
  decide

end FpgaTest.CountReplies
