import Mathlib.Data.List.GetD
import Mathlib.Tactic

/-!
# Runs of a synchronous machine

A machine is a step function on a register state. An input trace gives the
values present at every clock edge, numbered from zero; the state with index
`n` is the one the registers hold before edge `n`. Nothing here names a
particular design: the controllers of this development supply their own state,
input and step.

The rules below are the only inductions over time that the later modules use:
an invariant carried over an interval of edges, a measure that strictly
decreases until a goal state is reached, and the sequence of what an output
emits from an edge on.
-/
namespace FpgaTest.ClockedMachine

variable {S I O : Type}

/-- Registers before edge `n`. -/
def run (step : S → I → S) (s : S) (input : ℕ → I) : ℕ → S
  | 0 => s
  | n+1 => step (run step s input n) (input n)

theorem run_succ (step : S → I → S) (s : S) (input : ℕ → I) (n : ℕ) :
    run step s input (n+1) = step (run step s input n) (input n) := rfl

theorem run_add (step : S → I → S) (s : S) (input : ℕ → I) (m n : ℕ) :
    run step s input (m+n) = run step (run step s input m) (fun k => input (m+k)) n := by
  induction n with
  | zero => rfl
  | succ n ih => rw [← Nat.add_assoc,run_succ,ih,run_succ]

theorem run_proj {T : Type} {step : S → I → S} {step' : T → I → T} (f : S → T)
    (h : ∀ s i, f (step s i) = step' (f s) i) (s : S) (input : ℕ → I) (n : ℕ) :
    f (run step s input n) = run step' (f s) input n := by
  induction n with
  | zero => rfl
  | succ n ih => rw [run_succ,run_succ,h,ih]

theorem run_congr (step : S → I → S) (s : S) {input input' : ℕ → I} {n : ℕ}
    (h : ∀ k < n, input k = input' k) : run step s input n = run step s input' n := by
  induction n with
  | zero => rfl
  | succ n ih =>
      rw [run_succ,run_succ,ih (fun k hk => h k (by omega)),h n (Nat.lt_succ_self n)]

theorem run_invariant (step : S → I → S) (s : S) (input : ℕ → I) (P : ℕ → S → Prop)
    {m n : ℕ} (hmn : m ≤ n) (h : P m (run step s input m))
    (hstep : ∀ k, m ≤ k → k < n → P k (run step s input k) →
      P (k+1) (step (run step s input k) (input k))) :
    P n (run step s input n) := by
  induction n, hmn using Nat.le_induction with
  | base => exact h
  | succ n hmn ih =>
      exact hstep n hmn (Nat.lt_succ_self n)
        (ih (fun k hk hkn => hstep k hk (Nat.lt_succ_of_lt hkn)))

/-- A countdown that cannot pass zero within the interval ends in `P`: every edge
counts down or establishes `P`, and `P` is kept. -/
theorem run_countdown (step : S → I → S) (s : S) (input : ℕ → I) (P : S → Prop)
    (measure : S → ℕ) {m n : ℕ} (hmn : m ≤ n) (hpos : ∀ s, 0 < measure s)
    (hstart : measure (run step s input m) ≤ n-m)
    (hkeep : ∀ k, m ≤ k → k < n → P (run step s input k) → P (run step s input (k+1)))
    (hstep : ∀ k, m ≤ k → k < n → P (run step s input (k+1)) ∨
      measure (run step s input (k+1)) + 1 = measure (run step s input k)) :
    P (run step s input n) := by
  have hinv := run_invariant step s input (fun k s => P s ∨ measure s + (k-m) ≤ n-m) hmn
    (.inr (by omega)) ?_
  · rcases hinv with h | h
    · exact h
    · have := hpos (run step s input n)
      omega
  · intro k hk hkn hp
    rcases hp with hp | hp
    · exact .inl (hkeep k hk hkn hp)
    · rcases hstep k hk hkn with h | h
      · exact .inl h
      · right
        rw [run_succ] at h
        omega

/-- Progress by a decreasing measure: from `P`, every edge either reaches the
goal or keeps `P` with a smaller measure, so the goal is reached. -/
theorem run_reaches (step : S → I → S) (s : S) (input : ℕ → I) (P Q : S → Prop)
    (measure : S → ℕ) {m : ℕ} (h : P (run step s input m))
    (hstep : ∀ k, m ≤ k → P (run step s input k) →
      Q (step (run step s input k) (input k)) ∨
        (P (step (run step s input k) (input k)) ∧
          measure (step (run step s input k) (input k)) < measure (run step s input k))) :
    ∃ n, m < n ∧ Q (run step s input n) ∧ ∀ k, m ≤ k → k < n → P (run step s input k) := by
  induction hμ : measure (run step s input m) using Nat.strong_induction_on generalizing m with
  | _ d ih =>
      rcases hstep m le_rfl h with hq | ⟨hp,hlt⟩
      · refine ⟨m+1,Nat.lt_succ_self m,hq,?_⟩
        intro k hk hkm
        obtain rfl : k = m := by omega
        exact h
      · obtain ⟨n,hn,hq,hbetween⟩ := @ih _ (hμ ▸ hlt) (m+1) hp
          (fun k hk => hstep k (by omega)) rfl
        refine ⟨n,by omega,hq,?_⟩
        intro k hk hkn
        rcases Nat.eq_or_lt_of_le hk with rfl | hlt
        · exact h
        · exact hbetween k hlt hkn

/-- The registers satisfy `P` before the edges `a+1, …, b`, and neither before
edge `a` nor after edge `b`. -/
structure Visit (step : S → I → S) (s : S) (input : ℕ → I) (P : S → Prop) (a b : ℕ) : Prop where
  lt : a < b
  enters : ¬ P (run step s input a)
  stays : ∀ k, a < k → k ≤ b → P (run step s input k)
  leaves : ¬ P (run step s input (b+1))

theorem exists_visit {step : S → I → S} {s : S} {input : ℕ → I} {P : S → Prop} (Q : S → Prop)
    (measure : S → ℕ) {a : ℕ} (henters : ¬ P (run step s input a)) (hQ : ∀ s, Q s → P s)
    (h : Q (run step s input (a+1)))
    (hstep : ∀ k, a < k → Q (run step s input k) →
      ¬ P (step (run step s input k) (input k)) ∨
        (Q (step (run step s input k) (input k)) ∧
          measure (step (run step s input k) (input k)) < measure (run step s input k))) :
    ∃ b, Visit step s input P a b := by
  obtain ⟨n,hn,hleaves,hbetween⟩ := run_reaches step s input Q (fun s => ¬ P s) measure h hstep
  obtain ⟨b,rfl⟩ : ∃ b, n = b+1 := ⟨n-1,by omega⟩
  exact ⟨b,by omega,henters,fun k hk hkb => hQ _ (hbetween k hk (by omega)),hleaves⟩

/-- What the machine emits at the edges `m, …, m+len-1`, in order. -/
def emitted (step : S → I → S) (s : S) (input : ℕ → I) (out : S → I → Option O) (m : ℕ) :
    ℕ → List O
  | 0 => []
  | len+1 => emitted step s input out m len ++
      (out (run step s input (m+len)) (input (m+len))).toList

theorem emitted_invariant (step : S → I → S) (s : S) (input : ℕ → I) (out : S → I → Option O)
    (P : S → List O → Prop) {m : ℕ} (len : ℕ) (h : P (run step s input m) [])
    (hstep : ∀ k l, m ≤ k → k < m+len → P (run step s input k) l →
      P (step (run step s input k) (input k)) (l ++ (out (run step s input k) (input k)).toList)) :
    P (run step s input (m+len)) (emitted step s input out m len) := by
  induction len with
  | zero => exact h
  | succ len ih =>
      exact hstep (m+len) _ (by omega) (by omega)
        (ih (fun k l hk hkl => hstep k l hk (by omega)))

/-- A relation between the registers and what two outputs have emitted. -/
theorem emitted_invariant_pair {O' : Type} (step : S → I → S) (s : S) (input : ℕ → I)
    (out : S → I → Option O) (out' : S → I → Option O') (P : S → List O → List O' → Prop) {m : ℕ}
    (len : ℕ) (h : P (run step s input m) [] [])
    (hstep : ∀ k, m ≤ k → k < m+len →
      P (run step s input k) (emitted step s input out m (k-m))
        (emitted step s input out' m (k-m)) →
      P (step (run step s input k) (input k))
        (emitted step s input out m (k-m) ++ (out (run step s input k) (input k)).toList)
        (emitted step s input out' m (k-m) ++ (out' (run step s input k) (input k)).toList)) :
    P (run step s input (m+len)) (emitted step s input out m len)
      (emitted step s input out' m len) := by
  induction len with
  | zero => exact h
  | succ len ih =>
      have hlen : m+len-m = len := by omega
      have hnext := hstep (m+len) (by omega) (by omega)
      rw [hlen] at hnext
      exact hnext (ih (fun k hk hkl => hstep k hk (by omega)))

theorem emitted_mono (step : S → I → S) (s : S) (input : ℕ → I) (out : S → I → Option O) (m : ℕ)
    {a b : ℕ} (h : a ≤ b) : emitted step s input out m a <+: emitted step s input out m b := by
  induction b, h using Nat.le_induction with
  | base => exact List.prefix_rfl
  | succ b _ ih => exact ih.trans (List.prefix_append _ _)

theorem emitted_add (step : S → I → S) (s : S) (input : ℕ → I) (out : S → I → Option O)
    (m a b : ℕ) : emitted step s input out m (a+b) =
      emitted step s input out m a ++ emitted step s input out (m+a) b := by
  induction b with
  | zero => simp [emitted]
  | succ b ih => rw [← Nat.add_assoc,emitted,ih,emitted,List.append_assoc,Nat.add_assoc m a b]

/-- An output comes again and again if every edge without it lowers a measure. -/
theorem emitted_unbounded {step : S → I → S} {s : S} {input : ℕ → I} {out : S → I → Option O}
    (measure : S → ℕ) {m : ℕ}
    (hstep : ∀ k, m ≤ k → out (run step s input k) (input k) = none →
      measure (run step s input (k+1)) < measure (run step s input k)) (n : ℕ) :
    ∃ len, n ≤ (emitted step s input out m len).length := by
  have hemits : ∀ d k, m ≤ k → measure (run step s input k) = d →
      ∃ k', k ≤ k' ∧ ∃ x, out (run step s input k') (input k') = some x := by
    intro d
    induction d using Nat.strong_induction_on with
    | _ d ih =>
        intro k hk hd
        cases hx : out (run step s input k) (input k) with
        | some x => exact ⟨k,le_rfl,x,hx⟩
        | none =>
            obtain ⟨k',hk',hx'⟩ := ih _ (hd ▸ hstep k hk hx) (k+1) (by omega) rfl
            exact ⟨k',by omega,hx'⟩
  induction n with
  | zero => exact ⟨0,Nat.zero_le _⟩
  | succ n ih =>
      obtain ⟨len,hlen⟩ := ih
      obtain ⟨k,hk,x,hx⟩ := hemits _ (m+len) (by omega) rfl
      obtain ⟨a,rfl⟩ : ∃ a, k = m+(len+a) := ⟨k-m-len,by omega⟩
      have hmono := (emitted_mono step s input out m (Nat.le_add_right len a)).length_le
      refine ⟨len+a+1,?_⟩
      rw [emitted,hx,Option.toList_some,List.length_append,List.length_singleton]
      omega

/-- What an output has put out before edge `n` since the last restart. -/
def putOutSince (restart : ℕ → Bool) (out : ℕ → Option O) : ℕ → List O
  | 0 => []
  | n+1 => if restart n then [] else putOutSince restart out n ++ (out n).toList

theorem mem_putOutSince {restart : ℕ → Bool} {out : ℕ → Option O} {n : ℕ} {x : O} :
    x ∈ putOutSince restart out n ↔
      ∃ k < n, (∀ j, k ≤ j → j < n → restart j = false) ∧ out k = some x := by
  induction n with
  | zero => simp [putOutSince]
  | succ n ih =>
      cases hr : restart n with
      | true =>
          simp only [putOutSince,hr,if_true,List.not_mem_nil,false_iff]
          rintro ⟨k,hk,hno,-⟩
          rw [hno n (by omega) (Nat.lt_succ_self n)] at hr
          contradiction
      | false =>
          simp only [putOutSince,hr,Bool.false_eq_true,if_false,List.mem_append,
            Option.mem_toList,ih]
          constructor
          · rintro (⟨k,hk,hno,hx⟩ | hx)
            · refine ⟨k,by omega,fun j hj hjn => ?_,hx⟩
              rcases Nat.lt_succ_iff_lt_or_eq.mp hjn with hlt | rfl
              · exact hno j hj hlt
              · exact hr
            · refine ⟨n,Nat.lt_succ_self n,fun j hj hjn => ?_,hx⟩
              obtain rfl : j = n := by omega
              exact hr
          · rintro ⟨k,hk,hno,hx⟩
            rcases Nat.lt_succ_iff_lt_or_eq.mp hk with hlt | rfl
            · exact .inl ⟨k,hlt,fun j hj hjn => hno j hj (by omega),hx⟩
            · exact .inr hx

/-- The elements emitted from edge `m` on are `c 0`, `c 1` and so on. -/
def Enumerates (step : S → I → S) (s : S) (input : ℕ → I) (out : S → I → Option O) (m : ℕ)
    (c : ℕ → O) : Prop :=
  ∀ len, emitted step s input out m len =
    (List.range (emitted step s input out m len).length).map c

theorem exists_enumerates [Inhabited O] (step : S → I → S) (s : S) (input : ℕ → I)
    (out : S → I → Option O) (m : ℕ) : ∃ c : ℕ → O, Enumerates step s input out m c := by
  classical
  have hagree : ∀ a b j, j < (emitted step s input out m a).length →
      j < (emitted step s input out m b).length →
      (emitted step s input out m a).getD j default =
        (emitted step s input out m b).getD j default := by
    intro a b j ha hb
    rw [List.getD_eq_getElem _ _ ha,List.getD_eq_getElem _ _ hb]
    rcases le_total a b with h | h
    · exact (emitted_mono step s input out m h).getElem ha
    · exact ((emitted_mono step s input out m h).getElem hb).symm
  refine ⟨fun j => if h : ∃ len, j < (emitted step s input out m len).length then
    (emitted step s input out m h.choose).getD j default else default,fun len => ?_⟩
  apply List.ext_getElem
  · simp
  · intro j hj _
    have h : ∃ len, j < (emitted step s input out m len).length := ⟨len,hj⟩
    rw [List.getElem_map,List.getElem_range,dif_pos h,hagree _ len j h.choose_spec hj,
      List.getD_eq_getElem _ _ hj]

theorem Enumerates.next {step : S → I → S} {s : S} {input : ℕ → I} {out : S → I → Option O}
    {m len : ℕ} {c : ℕ → O} {x : O} (hc : Enumerates step s input out m c)
    (hx : out (run step s input (m+len)) (input (m+len)) = some x) :
    c (emitted step s input out m len).length = x := by
  have h := hc (len+1)
  rw [emitted,hx,Option.toList_some,List.length_append,List.length_singleton,List.range_succ,
    List.map_append,← hc len] at h
  simpa using (List.append_cancel_left h).symm

theorem exists_emission {step : S → I → S} {s : S} {input : ℕ → I} {out : S → I → Option O}
    {m len j : ℕ} (h : j < (emitted step s input out m len).length) :
    ∃ a < len, (emitted step s input out m a).length = j ∧
      ∃ x, out (run step s input (m+a)) (input (m+a)) = some x := by
  induction len with
  | zero => exact absurd h (Nat.not_lt_zero j)
  | succ len ih =>
      by_cases hj : j < (emitted step s input out m len).length
      · obtain ⟨a,ha,hx⟩ := ih hj
        exact ⟨a,by omega,hx⟩
      · rw [emitted,List.length_append] at h
        cases hx : out (run step s input (m+len)) (input (m+len)) with
        | none =>
            rw [hx,Option.toList_none,List.length_nil] at h
            omega
        | some x =>
            rw [hx,Option.toList_some,List.length_singleton] at h
            exact ⟨len,Nat.lt_succ_self len,by omega,x,hx⟩

theorem emitted_congr (step : S → I → S) (s : S) {input input' : ℕ → I}
    (out : S → I → Option O) {m len : ℕ} (h : ∀ k < m+len, input k = input' k) :
    emitted step s input out m len = emitted step s input' out m len := by
  induction len with
  | zero => rfl
  | succ len ih =>
      rw [emitted,emitted,ih (fun k hk => h k (by omega)),
        run_congr step s (fun k hk => h k (by omega)),h (m+len) (by omega)]

/-- Two emissions in a row: nothing is emitted between them. -/
theorem emission_next {step : S → I → S} {s : S} {input : ℕ → I} {out : S → I → Option O}
    {m a b : ℕ} {x : O} (hx : out (run step s input (m+a)) (input (m+a)) = some x)
    (hb : (emitted step s input out m b).length = (emitted step s input out m a).length + 1) :
    a < b ∧ ∀ k, a < k → k < b → out (run step s input (m+k)) (input (m+k)) = none := by
  have hmono : ∀ {p q}, p ≤ q → (emitted step s input out m p).length ≤
      (emitted step s input out m q).length :=
    fun h => (emitted_mono step s input out m h).length_le
  have hnext : (emitted step s input out m (a+1)).length =
      (emitted step s input out m a).length + 1 := by
    rw [emitted,hx,Option.toList_some,List.length_append,List.length_singleton]
  refine ⟨?_,fun k hk hkb => ?_⟩
  · by_contra hle
    have := hmono (Nat.le_of_not_lt hle)
    omega
  · cases hy : out (run step s input (m+k)) (input (m+k)) with
    | none => rfl
    | some y =>
        have hk' : (emitted step s input out m (k+1)).length =
            (emitted step s input out m k).length + 1 := by
          rw [emitted,hy,Option.toList_some,List.length_append,List.length_singleton]
        have h1 := hmono (show a+1 ≤ k by omega)
        have h2 := hmono (show k+1 ≤ b by omega)
        omega

theorem emission_unique {step : S → I → S} {s : S} {input : ℕ → I} {out : S → I → Option O}
    {m a b : ℕ} {x y : O} (hx : out (run step s input (m+a)) (input (m+a)) = some x)
    (hy : out (run step s input (m+b)) (input (m+b)) = some y)
    (h : (emitted step s input out m a).length = (emitted step s input out m b).length) :
    a = b := by
  have hlt : ∀ {p q z}, out (run step s input (m+p)) (input (m+p)) = some z → p < q →
      (emitted step s input out m p).length < (emitted step s input out m q).length := by
    intro p q z hz hpq
    have hmono := (emitted_mono step s input out m (show p+1 ≤ q from hpq)).length_le
    rw [emitted,hz,Option.toList_some,List.length_append,List.length_singleton] at hmono
    exact hmono
  rcases Nat.lt_trichotomy a b with hab | hab | hab
  · exact absurd h (hlt hx hab).ne
  · exact hab
  · exact absurd h.symm (hlt hy hab).ne

theorem emitted_eq_nil {step : S → I → S} {s : S} {input : ℕ → I} {out : S → I → Option O}
    {m len : ℕ} (h : ∀ k, m ≤ k → k < m+len → out (run step s input k) (input k) = none) :
    emitted step s input out m len = [] := by
  induction len with
  | zero => rfl
  | succ len ih =>
      rw [emitted,ih (fun k hk hkl => h k hk (by omega)),h (m+len) (by omega) (by omega)]
      rfl

/-- If every edge emits the next element of a sequence or nothing, the elements
that were counted have been emitted. -/
theorem emitted_eq_map_range {step : S → I → S} {s : S} {input : ℕ → I} {out : S → I → Option O}
    {m len : ℕ} {c : ℕ → O} (count : ℕ → ℕ) (hzero : count 0 = 0)
    (hstep : ∀ j < len,
      (out (run step s input (m+j)) (input (m+j)) = some (c (count j)) ∧
        count (j+1) = count j + 1) ∨
      (out (run step s input (m+j)) (input (m+j)) = none ∧ count (j+1) = count j)) :
    emitted step s input out m len = (List.range (count len)).map c := by
  induction len with
  | zero =>
      rw [hzero]
      rfl
  | succ len ih =>
      rw [emitted,ih fun j hj => hstep j (Nat.lt_succ_of_lt hj)]
      rcases hstep len (Nat.lt_succ_self len) with ⟨hout,hcount⟩ | ⟨hout,hcount⟩
      · rw [hout,hcount,List.range_succ,List.map_append]
        rfl
      · rw [hout,hcount,Option.toList_none,List.append_nil]

end FpgaTest.ClockedMachine
