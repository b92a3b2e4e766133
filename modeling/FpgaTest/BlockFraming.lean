import Mathlib.Tactic

/-!
# Fixed-size framing of a segmented stream

A receiver that collects segments and hands on every complete block of `k`
elements. `blocks` and `residue` say what a whole stream contains; `feed` is
the receiver, which keeps only the incomplete tail between segments and starts
over with the new segment when the tail and the segment do not fit below
`limit`. The element type is arbitrary.

The receiver delivers the blocks of the stream for every cutting that loses
nothing, and `LosslessCut` states that condition on segment lengths alone.
-/
namespace FpgaTest.BlockFraming

variable {A : Type}

/-- The complete blocks of a stream, counted from position zero. -/
def blocks (k : ℕ) (xs : List A) : List (List A) :=
  (List.range (xs.length / k)).map fun i => (xs.drop (i*k)).take k

/-- What follows the last complete block. -/
def residue (k : ℕ) (xs : List A) : List A := xs.drop (xs.length / k * k)

section
variable {k : ℕ}

theorem blocks_of_lt {xs : List A} (h : xs.length < k) : blocks k xs = [] := by
  simp [blocks,Nat.div_eq_of_lt h]

theorem residue_of_lt {xs : List A} (h : xs.length < k) : residue k xs = xs := by
  simp [residue,Nat.div_eq_of_lt h]

theorem length_div_drop (hk : 0 < k) {xs : List A} (h : k ≤ xs.length) :
    xs.length / k = (xs.drop k).length / k + 1 := by
  rw [List.length_drop,Nat.div_eq_sub_div hk h]

theorem blocks_of_le (hk : 0 < k) {xs : List A} (h : k ≤ xs.length) :
    blocks k xs = xs.take k :: blocks k (xs.drop k) := by
  unfold blocks
  rw [length_div_drop hk h,List.range_succ_eq_map,List.map_cons,List.map_map]
  congr 1
  · simp
  · apply List.map_congr_left
    intro i _
    simp only [Function.comp_apply,List.drop_drop]
    congr 2
    rw [Nat.succ_mul,Nat.add_comm]

theorem residue_of_le (hk : 0 < k) {xs : List A} (h : k ≤ xs.length) :
    residue k xs = residue k (xs.drop k) := by
  unfold residue
  rw [length_div_drop hk h,List.drop_drop]
  congr 1
  ring

theorem block_induction (hk : 0 < k) {P : List A → Prop} (short : ∀ xs, xs.length < k → P xs)
    (long : ∀ xs, k ≤ xs.length → P (xs.drop k) → P xs) (xs : List A) : P xs := by
  induction h : xs.length using Nat.strong_induction_on generalizing xs with
  | _ n ih =>
      by_cases hlt : xs.length < k
      · exact short xs hlt
      · exact long xs (by omega) (ih (xs.drop k).length (by rw [List.length_drop]; omega) _ rfl)

@[simp] theorem length_residue (xs : List A) : (residue k xs).length = xs.length % k := by
  rw [residue,List.length_drop]
  have h := Nat.div_add_mod xs.length k
  rw [Nat.mul_comm] at h
  omega

theorem blocks_flatten_residue (hk : 0 < k) (xs : List A) :
    (blocks k xs).flatten ++ residue k xs = xs := by
  induction xs using block_induction hk with
  | short xs h => simp [blocks_of_lt h,residue_of_lt h]
  | long xs h ih =>
      rw [blocks_of_le hk h,residue_of_le hk h,List.flatten_cons,List.append_assoc,ih,
        List.take_append_drop]

theorem blocks_append (hk : 0 < k) (xs ys : List A) :
    blocks k (xs ++ ys) = blocks k xs ++ blocks k (residue k xs ++ ys) := by
  induction xs using block_induction hk with
  | short xs h => rw [blocks_of_lt h,residue_of_lt h,List.nil_append]
  | long xs h ih =>
      have hle : k ≤ (xs ++ ys).length := by rw [List.length_append]; omega
      rw [blocks_of_le hk hle,blocks_of_le hk h,residue_of_le hk h,
        List.take_append_of_le_length h,List.drop_append_of_le_length h,ih,List.cons_append]

theorem residue_append (hk : 0 < k) (xs ys : List A) :
    residue k (xs ++ ys) = residue k (residue k xs ++ ys) := by
  induction xs using block_induction hk with
  | short xs h => rw [residue_of_lt h]
  | long xs h ih =>
      have hle : k ≤ (xs ++ ys).length := by rw [List.length_append]; omega
      rw [residue_of_le hk hle,residue_of_le hk h,List.drop_append_of_le_length h,ih]

theorem mem_blocks {xs m : List A} :
    m ∈ blocks k xs ↔ ∃ i < xs.length / k, m = (xs.drop (i*k)).take k := by
  simp only [blocks,List.mem_map,List.mem_range]
  exact exists_congr fun i => and_congr_right fun _ => eq_comm

theorem length_of_mem_blocks {xs m : List A} (h : m ∈ blocks k xs) : m.length = k := by
  rcases mem_blocks.mp h with ⟨i,hi,rfl⟩
  have hk : (i+1)*k ≤ xs.length :=
    (Nat.mul_le_mul_right k hi).trans (Nat.div_mul_le_self xs.length k)
  rw [Nat.add_mul] at hk
  rw [List.length_take,List.length_drop]
  omega

end

/-- The stored bytes after one segment: appended, or replaced when they do not
fit below the limit. -/
def absorb (limit : ℕ) (pending seg : List A) : List A :=
  if limit ≤ seg.length + pending.length then seg else pending ++ seg

/-- Pending tail and delivered blocks after a list of segments. -/
def feed (k limit : ℕ) : List A → List (List A) → List A × List (List A)
  | pending, [] => (pending,[])
  | pending, seg::segs =>
      let x := absorb limit pending seg
      let r := feed k limit (residue k x) segs
      (r.1,blocks k x ++ r.2)

/-- Every segment that reaches the limit meets an empty tail. Only the number
of pending elements and the lengths of the segments decide this. -/
def LosslessCut (k limit : ℕ) : ℕ → List ℕ → Prop
  | _, [] => True
  | r, n::ns => (limit ≤ n+r → r = 0) ∧
      LosslessCut k limit ((if limit ≤ n+r then n else r+n) % k) ns

instance decidableLosslessCut (k limit : ℕ) : (r : ℕ) → (ns : List ℕ) →
    Decidable (LosslessCut k limit r ns)
  | _, [] => .isTrue trivial
  | r, n::ns =>
      have := decidableLosslessCut k limit ((if limit ≤ n+r then n else r+n) % k) ns
      inferInstanceAs (Decidable (_ ∧ _))

section
variable {k limit : ℕ}

theorem length_absorb (pending seg : List A) : (absorb limit pending seg).length =
    if limit ≤ seg.length + pending.length then seg.length else pending.length + seg.length := by
  unfold absorb
  split_ifs <;> simp

theorem absorb_lossless {pending seg : List A}
    (h : limit ≤ seg.length + pending.length → pending.length = 0) :
    absorb limit pending seg = pending ++ seg := by
  unfold absorb
  split_ifs with hl
  · rw [List.eq_nil_of_length_eq_zero (h hl),List.nil_append]
  · rfl

theorem feed_append (pending : List A) (xs ys : List (List A)) :
    feed k limit pending (xs ++ ys) =
      ((feed k limit (feed k limit pending xs).1 ys).1,
        (feed k limit pending xs).2 ++ (feed k limit (feed k limit pending xs).1 ys).2) := by
  induction xs generalizing pending with
  | nil => simp [feed]
  | cons x xs ih => simp [feed,ih]

/-- A cutting that loses nothing delivers the blocks of the whole stream and
leaves its trailing elements. -/
theorem feed_lossless (hk : 0 < k) (pending : List A) (segs : List (List A))
    (hp : pending.length < k) (h : LosslessCut k limit pending.length (segs.map List.length)) :
    feed k limit pending segs =
      (residue k (pending ++ segs.flatten),blocks k (pending ++ segs.flatten)) := by
  induction segs generalizing pending with
  | nil => simp [feed,residue_of_lt hp,blocks_of_lt hp]
  | cons seg segs ih =>
      obtain ⟨hfit,hrest⟩ := h
      have hx := absorb_lossless hfit
      have hnext : LosslessCut k limit (residue k (pending ++ seg)).length
          (segs.map List.length) := by
        rw [length_residue,← hx,length_absorb]
        exact hrest
      have hlt : (residue k (pending ++ seg)).length < k := by
        rw [length_residue]
        exact Nat.mod_lt _ hk
      simp only [feed,hx,ih _ hlt hnext,List.flatten_cons,← List.append_assoc]
      rw [residue_append hk (pending ++ seg),blocks_append hk (pending ++ seg)]

/-- A cutting that loses something has a first segment that reaches the limit
while elements are pending; everything before it is lossless. -/
theorem exists_first_loss {r : ℕ} {ns : List ℕ} (hr : r < k) (h : ¬ LosslessCut k limit r ns) :
    ∃ before n after, ns = before ++ n::after ∧ LosslessCut k limit r before ∧
      (r + before.sum) % k ≠ 0 ∧ limit ≤ n + (r + before.sum) % k := by
  induction ns generalizing r with
  | nil => exact absurd trivial h
  | cons n ns ih =>
      by_cases hfit : limit ≤ n+r → r = 0
      · have hnext : (if limit ≤ n+r then n else r+n) % k = (r+n) % k := by
          split_ifs with hl
          · rw [hfit hl,Nat.zero_add]
          · rfl
        have hrest : ¬ LosslessCut k limit ((r+n) % k) ns := by
          intro hc
          exact h ⟨hfit,by rwa [hnext]⟩
        obtain ⟨before,m,after,rfl,hb,hne,hle⟩ := ih (Nat.mod_lt _ (by omega)) hrest
        refine ⟨n::before,m,after,rfl,⟨hfit,by rwa [hnext]⟩,?_,?_⟩
        · rwa [List.sum_cons,← Nat.add_assoc,← Nat.mod_add_mod]
        · rwa [List.sum_cons,← Nat.add_assoc,← Nat.mod_add_mod]
      · rw [Classical.not_imp] at hfit
        refine ⟨[],n,ns,rfl,trivial,?_,?_⟩
        · rw [List.sum_nil,Nat.add_zero,Nat.mod_eq_of_lt hr]
          exact hfit.2
        · rw [List.sum_nil,Nat.add_zero,Nat.mod_eq_of_lt hr]
          exact hfit.1

end

end FpgaTest.BlockFraming
