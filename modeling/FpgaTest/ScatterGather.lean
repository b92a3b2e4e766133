import FpgaTest.ByteMemory

/-!
# A scatter-gather engine in loopback

The engine has two channels that walk chains of descriptors in the memory that
also holds the data. The sending channel appends the buffer of its current
descriptor to the stream; the receiving one stores as many bytes of the stream
as its current descriptor has room for. Both write a status word back into the
descriptor they have finished, with contents the model leaves open, and stop
behind their tail descriptor. The two channels take turns in any order.

`Layout` says where the descriptors and buffers are. If a memory holds such
chains and the ranges the engine writes stay clear of the ranges it still
reads, then every order of steps ends with the same buffers, and no order gets
stuck.
-/
namespace FpgaTest.ScatterGather
open ByteMemory

structure Descriptor where
  next : ℕ
  buffer : ℕ
  length : ℕ
  deriving DecidableEq, Repr

/-- The length field has 26 bits; the start and end of frame bits stand above it. -/
def fetch (m : Memory) (addr : ℕ) : Descriptor :=
  ⟨readU32 m addr,readU32 m (addr+0x08),readU32 m (addr+0x18) % 2^26⟩

/-- A channel that has passed its tail descriptor has no current one. -/
structure Engine where
  memory : Memory
  mm2s : Option ℕ
  mm2sTail : ℕ
  s2mm : Option ℕ
  s2mmTail : ℕ
  stream : List Byte

inductive Action where
  | mm2s (status : ℕ)
  | s2mm (status : ℕ)
  deriving DecidableEq, Repr

/-- The status word of a finished descriptor. -/
def writeBack (m : Memory) (addr status : ℕ) : Memory := write m (addr+0x1c) (toLe 4 status)

def step (e : Engine) : Action → Option Engine
  | .mm2s status =>
      e.mm2s.map fun cur =>
        let d := fetch e.memory cur
        { e with
          memory := writeBack e.memory cur status
          mm2s := if cur = e.mm2sTail then none else some d.next
          stream := e.stream ++ read e.memory d.buffer d.length }
  | .s2mm status =>
      e.s2mm.bind fun cur =>
        let d := fetch e.memory cur
        if d.length ≤ e.stream.length then
          some
            { e with
              memory := writeBack (write e.memory d.buffer (e.stream.take d.length)) cur status
              s2mm := if cur = e.s2mmTail then none else some d.next
              stream := e.stream.drop d.length }
        else none

/-- The engine after the given steps, if each of them was possible. -/
def run (e : Engine) : List Action → Option Engine
  | [] => some e
  | a::rest => (step e a).bind fun e' => run e' rest

/-- Both channels have passed their tails. -/
def Engine.Done (e : Engine) : Prop := e.mm2s = none ∧ e.s2mm = none

inductive Side where
  | source | target
  deriving DecidableEq, Repr

/-- Addresses of `count` descriptors and buffers on either side. -/
structure Layout where
  count : ℕ
  desc : Side → ℕ → ℕ
  buf : Side → ℕ → ℕ
  len : ℕ → ℕ

/-- Two ranges of addresses without a common byte. -/
def Apart (a la b lb : ℕ) : Prop := a + la ≤ b ∨ b + lb ≤ a

/-- What the engine writes is clear of what it still reads. -/
structure Layout.Separated (l : Layout) : Prop where
  len_pos : ∀ i < l.count, 0 < l.len i
  desc_inj : ∀ s, ∀ i < l.count, l.desc s i = l.desc s (l.count-1) → i = l.count-1
  status_desc : ∀ s, ∀ i < l.count, ∀ s', ∀ j < l.count,
    Apart (l.desc s i + 0x1c) 4 (l.desc s' j) 0x1c
  status_buf : ∀ s, ∀ i < l.count, ∀ s', ∀ j < l.count,
    Apart (l.desc s i + 0x1c) 4 (l.buf s' j) (l.len j)
  target_desc : ∀ i < l.count, ∀ s, ∀ j < l.count,
    Apart (l.buf .target i) (l.len i) (l.desc s j) 0x1c
  target_source : ∀ i < l.count, ∀ j < l.count,
    Apart (l.buf .target i) (l.len i) (l.buf .source j) (l.len j)
  target_target : ∀ i < l.count, ∀ j < l.count, i ≠ j →
    Apart (l.buf .target i) (l.len i) (l.buf .target j) (l.len j)

/-- The chain of one side as it stands in memory. -/
def Layout.Linked (l : Layout) (s : Side) (m : Memory) : Prop :=
  ∀ i < l.count, (fetch m (l.desc s i)).buffer = l.buf s i ∧
    (fetch m (l.desc s i)).length = l.len i ∧
    (i+1 < l.count → (fetch m (l.desc s i)).next = l.desc s (i+1))

theorem fetch_write {m : Memory} {addr a : ℕ} {bs : List Byte}
    (h : Apart a bs.length addr 0x1c) : fetch (write m a bs) addr = fetch m addr := by
  unfold Apart at h
  unfold fetch readU32
  rw [read_write_disjoint (by omega),read_write_disjoint (by omega),read_write_disjoint (by omega)]

theorem Layout.Linked.write {l : Layout} {s : Side} {m : Memory} (h : l.Linked s m) {a : ℕ}
    {bs : List Byte} (hapart : ∀ j < l.count, Apart a bs.length (l.desc s j) 0x1c) :
    l.Linked s (write m a bs) := by
  intro i hi
  rw [fetch_write (hapart i hi)]
  exact h i hi

theorem read_write_apart {m : Memory} {a addr len : ℕ} {bs : List Byte}
    (h : Apart a bs.length addr len) : read (write m a bs) addr len = read m addr len :=
  read_write_disjoint (Or.symm h)

/-- The contents of the buffers `j, …, i-1`, one after the other. -/
def segments (data : ℕ → List Byte) (j i : ℕ) : List Byte :=
  ((List.range' j (i-j)).map data).flatten

theorem segments_self (data : ℕ → List Byte) (i : ℕ) : segments data i i = [] := by
  simp [segments]

theorem segments_succ (data : ℕ → List Byte) {j i : ℕ} (h : j ≤ i) :
    segments data j (i+1) = segments data j i ++ data i := by
  rw [segments,segments,show i+1-j = i-j+1 by omega,List.range'_1_concat,
    show j+(i-j) = i by omega]
  simp

theorem segments_of_lt (data : ℕ → List Byte) {j i : ℕ} (h : j < i) :
    segments data j i = data j ++ segments data (j+1) i := by
  rw [segments,segments,show i-j = i-(j+1)+1 by omega,List.range'_succ]
  simp

/-- `i` buffers have been sent and `j` of them received. -/
structure Progress (l : Layout) (data : ℕ → List Byte) (e : Engine) (i j : ℕ) : Prop where
  sent_le : i ≤ l.count
  received_le : j ≤ i
  linked : ∀ s, l.Linked s e.memory
  source : ∀ k < l.count, read e.memory (l.buf .source k) (l.len k) = data k
  mm2s : e.mm2s = if i < l.count then some (l.desc .source i) else none
  mm2sTail : e.mm2sTail = l.desc .source (l.count-1)
  s2mm : e.s2mm = if j < l.count then some (l.desc .target j) else none
  s2mmTail : e.s2mmTail = l.desc .target (l.count-1)
  stream : e.stream = segments data j i
  target : ∀ k < j, read e.memory (l.buf .target k) (l.len k) = data k

variable {l : Layout} {data : ℕ → List Byte} {e : Engine} {i j : ℕ}

theorem Progress.length_data (h : Progress l data e i j) {k : ℕ} (hk : k < l.count) :
    (data k).length = l.len k := by
  rw [← h.source k hk,length_read]

/-- A status word disturbs neither chain and no buffer. -/
theorem Progress.writeBack (hl : l.Separated) (h : Progress l data e i j) (s : Side) {k : ℕ}
    (hk : k < l.count) (status : ℕ) :
    Progress l data { e with memory := writeBack e.memory (l.desc s k) status } i j := by
  have hstatus : (toLe 4 status).length = 4 := length_toLe 4 status
  refine { h with linked := ?_, source := ?_, target := ?_ }
  · intro s'
    apply (h.linked s').write
    intro j' hj'
    rw [hstatus]
    exact hl.status_desc s k hk s' j' hj'
  · intro k' hk'
    rw [← h.source k' hk']
    apply read_write_apart
    rw [hstatus]
    exact hl.status_buf s k hk .source k' hk'
  · intro k' hk'
    have hcount : k' < l.count := lt_of_lt_of_le hk' (h.received_le.trans h.sent_le)
    rw [← h.target k' hk']
    apply read_write_apart
    rw [hstatus]
    exact hl.status_buf s k hk .target k' hcount

theorem next_eq (hl : l.Separated) {m : Memory} {s : Side} (h : l.Linked s m) {k : ℕ}
    (hk : k < l.count) :
    (if l.desc s k = l.desc s (l.count-1) then none else some (fetch m (l.desc s k)).next) =
      if k+1 < l.count then some (l.desc s (k+1)) else none := by
  by_cases hlast : k+1 < l.count
  · have hne : l.desc s k ≠ l.desc s (l.count-1) := by
      intro he
      have := hl.desc_inj s k hk he
      omega
    rw [if_neg hne,if_pos hlast,(h k hk).2.2 hlast]
  · have he : k = l.count-1 := by omega
    rw [if_neg hlast,← he,if_pos rfl]

theorem step_mm2s {cur : ℕ} (h : e.mm2s = some cur) (status : ℕ) :
    step e (.mm2s status) = some
      { e with
        memory := writeBack e.memory cur status
        mm2s := if cur = e.mm2sTail then none else some (fetch e.memory cur).next
        stream := e.stream ++
          read e.memory (fetch e.memory cur).buffer (fetch e.memory cur).length } := by
  rw [step,h]
  rfl

theorem step_s2mm {cur : ℕ} (h : e.s2mm = some cur)
    (hroom : (fetch e.memory cur).length ≤ e.stream.length) (status : ℕ) :
    step e (.s2mm status) = some
      { e with
        memory := writeBack (write e.memory (fetch e.memory cur).buffer
          (e.stream.take (fetch e.memory cur).length)) cur status
        s2mm := if cur = e.s2mmTail then none else some (fetch e.memory cur).next
        stream := e.stream.drop (fetch e.memory cur).length } := by
  rw [step,h,Option.bind_some]
  exact if_pos hroom

theorem mm2s_step (hl : l.Separated) (h : Progress l data e i j) (hi : i < l.count)
    (status : ℕ) : ∃ e', step e (.mm2s status) = some e' ∧ Progress l data e' (i+1) j := by
  have hcur : e.mm2s = some (l.desc .source i) := by rw [h.mm2s,if_pos hi]
  have hfetch := h.linked .source i hi
  refine ⟨_,step_mm2s hcur status,?_⟩
  refine { Progress.writeBack hl h .source hi status with
    sent_le := hi, received_le := h.received_le.trans (Nat.le_succ i), mm2s := ?_, stream := ?_ }
  · rw [h.mm2sTail]
    exact next_eq hl (h.linked .source) hi
  · simp only [segments_succ data h.received_le,h.stream,hfetch.1,hfetch.2.1,h.source i hi]

/-- The buffer received next, stored at its place: nothing still needed is
overwritten. -/
theorem Progress.store (hl : l.Separated) (h : Progress l data e i j) (hj : j < i) :
    Progress l data
      { e with
        memory := write e.memory (l.buf .target j) (data j)
        s2mm := if j+1 < l.count then some (l.desc .target (j+1)) else none
        stream := segments data (j+1) i } i (j+1) := by
  have hcount : j < l.count := lt_of_lt_of_le hj h.sent_le
  have hlen := h.length_data hcount
  refine { h with
    received_le := hj, linked := ?_, source := ?_, s2mm := rfl, stream := rfl, target := ?_ }
  · intro s
    apply (h.linked s).write
    intro k hk
    rw [hlen]
    exact hl.target_desc j hcount s k hk
  · intro k hk
    rw [← h.source k hk]
    apply read_write_apart
    rw [hlen]
    exact hl.target_source j hcount k hk
  · intro k hk
    by_cases hkj : k = j
    · rw [hkj,← hlen,read_write_self]
    · rw [← h.target k (by omega)]
      apply read_write_apart
      rw [hlen]
      exact hl.target_target j hcount k (by omega) (Ne.symm hkj)

theorem s2mm_step (hl : l.Separated) (h : Progress l data e i j) (hj : j < i) (status : ℕ) :
    ∃ e', step e (.s2mm status) = some e' ∧ Progress l data e' i (j+1) := by
  have hcount : j < l.count := lt_of_lt_of_le hj h.sent_le
  have hcur : e.s2mm = some (l.desc .target j) := by rw [h.s2mm,if_pos hcount]
  have hfetch := h.linked .target j hcount
  have hstream : e.stream = data j ++ segments data (j+1) i := by
    rw [h.stream,segments_of_lt data hj]
  have hlen := h.length_data hcount
  have htake : e.stream.take (l.len j) = data j := by rw [hstream,List.take_left' hlen]
  have hdrop : e.stream.drop (l.len j) = segments data (j+1) i := by
    rw [hstream,List.drop_left' hlen]
  have hroom : (fetch e.memory (l.desc .target j)).length ≤ e.stream.length := by
    rw [hfetch.2.1,hstream,List.length_append,hlen]
    omega
  have hnext := next_eq hl (h.linked .target) hcount
  rw [← h.s2mmTail] at hnext
  refine ⟨_,step_s2mm hcur hroom status,?_⟩
  rw [hfetch.1,hfetch.2.1,htake,hdrop,hnext]
  exact Progress.writeBack hl (h.store hl hj) .target hcount status

/-- Every possible step sends the next buffer or receives one already sent. -/
theorem step_progress (hl : l.Separated) (h : Progress l data e i j) {a : Action} {e' : Engine}
    (hstep : step e a = some e') :
    Progress l data e' (i+1) j ∨ Progress l data e' i (j+1) := by
  cases a with
  | mm2s status =>
      by_cases hi : i < l.count
      · rcases mm2s_step hl h hi status with ⟨e'',hstep',h'⟩
        rw [hstep] at hstep'
        cases hstep'
        exact Or.inl h'
      · rw [step,h.mm2s,if_neg hi] at hstep
        contradiction
  | s2mm status =>
      by_cases hj : j < i
      · rcases s2mm_step hl h hj status with ⟨e'',hstep',h'⟩
        rw [hstep] at hstep'
        cases hstep'
        exact Or.inr h'
      · have hji : j = i := le_antisymm h.received_le (Nat.le_of_not_lt hj)
        have hempty : e.stream = [] := by rw [h.stream,hji,segments_self]
        rw [step,h.s2mm] at hstep
        by_cases hcount : j < l.count
        · have hpos := hl.len_pos j hcount
          rw [if_pos hcount,Option.bind_some,if_neg] at hstep
          · contradiction
          · rw [(h.linked .target j hcount).2.1,hempty,List.length_nil]
            omega
        · rw [if_neg hcount] at hstep
          contradiction

theorem run_progress (hl : l.Separated) {actions : List Action} {e' : Engine}
    (h : Progress l data e i j) (hrun : run e actions = some e') :
    ∃ i' j', Progress l data e' i' j' ∧ i'+j' = i+j+actions.length := by
  induction actions generalizing e i j with
  | nil =>
      cases hrun
      exact ⟨i,j,h,rfl⟩
  | cons a rest ih =>
      rcases Option.bind_eq_some_iff.mp hrun with ⟨e'',hstep,hrest⟩
      rcases step_progress hl h hstep with h' | h'
      · rcases ih h' hrest with ⟨i',j',hp,hsum⟩
        exact ⟨i',j',hp,by rw [hsum,List.length_cons]; omega⟩
      · rcases ih h' hrest with ⟨i',j',hp,hsum⟩
        exact ⟨i',j',hp,by rw [hsum,List.length_cons]; omega⟩

theorem Progress.done_iff (h : Progress l data e i j) : e.Done ↔ j = l.count := by
  have hle := h.received_le.trans h.sent_le
  rw [Engine.Done,h.mm2s,h.s2mm]
  constructor
  · intro hd
    by_contra hne
    rw [if_pos (show j < l.count by omega)] at hd
    exact Option.some_ne_none _ hd.2
  · intro hj
    have hi : i = l.count := le_antisymm h.sent_le (hj ▸ h.received_le)
    rw [if_neg (by omega),if_neg (by omega)]
    exact ⟨rfl,rfl⟩

theorem Progress.enabled (hl : l.Separated) (h : Progress l data e i j) (hdone : ¬ e.Done)
    (status : ℕ) : (∃ e', step e (.mm2s status) = some e' ∧ Progress l data e' (i+1) j) ∨
      ∃ e', step e (.s2mm status) = some e' ∧ Progress l data e' i (j+1) := by
  rw [h.done_iff] at hdone
  have hsent := h.sent_le
  have hle := h.received_le
  by_cases hi : i < l.count
  · exact Or.inl (mm2s_step hl h hi status)
  · exact Or.inr (s2mm_step hl h (by omega) status)

/-- Some order of steps finishes both chains. -/
theorem exists_run_done (hl : l.Separated) (h : Progress l data e i j) :
    ∃ actions e', run e actions = some e' ∧ e'.Done := by
  induction hμ : 2*l.count - (i+j) using Nat.strong_induction_on generalizing e i j with
  | _ d ih =>
      have hsent := h.sent_le
      have hle := h.received_le
      by_cases hdone : e.Done
      · exact ⟨[],e,rfl,hdone⟩
      · have hj : j ≠ l.count := fun he => hdone (h.done_iff.mpr he)
        rcases h.enabled hl hdone 0 with ⟨e',hstep,h'⟩ | ⟨e',hstep,h'⟩
        · rcases ih (2*l.count - (i+1+j)) (by omega) h' rfl with ⟨actions,f,hrun,hf⟩
          exact ⟨_::actions,f,by rw [run,hstep]; exact hrun,hf⟩
        · rcases ih (2*l.count - (i+(j+1))) (by omega) h' rfl with ⟨actions,f,hrun,hf⟩
          exact ⟨_::actions,f,by rw [run,hstep]; exact hrun,hf⟩

end FpgaTest.ScatterGather
