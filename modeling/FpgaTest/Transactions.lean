import FpgaTest.ClockedMachine

/-!
# Transactions of a fixed length

A machine that starts a transaction at some edges and is busy with it for a
fixed number of edges, whatever its inputs are meanwhile. `At w j` says what the
registers are `j` edges after the transaction with payload `w` was started. The
rules give the registers of a whole run: where a transaction is, that every
busy edge belongs to one, and that two of them do not overlap.
-/
namespace FpgaTest.Transactions
open ClockedMachine

variable {S I W : Type} {step : S → I → S} {start : S → I → Option W} {Good : I → Prop}
  {Inv Busy : S → Prop} {At : W → ℕ → S → Prop} {len : ℕ}

/-- What single edges have to do. -/
structure Serves (step : S → I → S) (start : S → I → Option W) (Good : I → Prop)
    (Inv Busy : S → Prop) (At : W → ℕ → S → Prop) (len : ℕ) : Prop where
  keep : ∀ {s i}, Inv s → Inv (step s i)
  starts : ∀ {s i w}, Inv s → start s i = some w → ¬ Busy s ∧ At w 0 (step s i)
  next : ∀ {s i w j}, At w j s → Good i → j+1 < len → At w (j+1) (step s i)
  ends : ∀ {s i w j}, At w j s → Good i → j+1 = len → ¬ Busy (step s i)
  busy : ∀ {s w j}, At w j s → Busy s
  rests : ∀ {s i}, Inv s → ¬ Busy s → Good i → start s i = none → ¬ Busy (step s i)

/-- A run that is at rest behind edge `m` and has good inputs from then on. -/
structure RestsAfter (step : S → I → S) (Good : I → Prop) (Inv Busy : S → Prop) (s : S)
    (input : ℕ → I) (m : ℕ) : Prop where
  inv : Inv (run step s input (m+1))
  rest : ¬ Busy (run step s input (m+1))
  good : ∀ k, m < k → Good (input k)

variable {s : S} {input : ℕ → I} {m n n' k j : ℕ} {w w' : W}

theorem inv_run (hs : Serves step start Good Inv Busy At len)
    (h : RestsAfter step Good Inv Busy s input m) (hk : m < k) : Inv (run step s input k) := by
  induction k, Nat.succ_le_of_lt hk using Nat.le_induction with
  | base => exact h.inv
  | succ k hk' ih => exact hs.keep (ih hk')

theorem at_run (hs : Serves step start Good Inv Busy At len)
    (h : RestsAfter step Good Inv Busy s input m) (hn : m < n)
    (hw : start (run step s input n) (input n) = some w) (hj : j < len) :
    At w j (run step s input (n+1+j)) := by
  induction j with
  | zero => exact (hs.starts (inv_run hs h hn) hw).2
  | succ j ih => exact hs.next (ih (by omega)) (h.good (n+1+j) (by omega)) hj

theorem rest_after (hs : Serves step start Good Inv Busy At len)
    (h : RestsAfter step Good Inv Busy s input m) (hn : m < n)
    (hw : start (run step s input n) (input n) = some w) (hj : j+1 = len) :
    ¬ Busy (run step s input (n+1+j+1)) :=
  hs.ends (at_run hs h hn hw (by omega)) (h.good (n+1+j) (by omega)) hj

/-- Every busy edge belongs to a transaction that was started. -/
theorem exists_start (hs : Serves step start Good Inv Busy At len)
    (h : RestsAfter step Good Inv Busy s input m) (hlen : 0 < len) (hk : m < k)
    (hb : Busy (run step s input k)) :
    ∃ w n j, m < n ∧ k = n+1+j ∧ j < len ∧ start (run step s input n) (input n) = some w := by
  induction k, Nat.succ_le_of_lt hk using Nat.le_induction with
  | base => exact absurd hb h.rest
  | succ k hk' ih =>
      by_cases hprev : Busy (run step s input k)
      · rcases ih hk' hprev with ⟨w,n,j,hn,rfl,hj,hw⟩
        refine ⟨w,n,j+1,hn,rfl,?_,hw⟩
        by_contra hlast
        exact rest_after hs h hn hw (by omega) hb
      · cases hw : start (run step s input k) (input k) with
        | some w => exact ⟨w,k,0,hk',rfl,hlen,hw⟩
        | none => exact absurd hb (hs.rests (inv_run hs h hk') hprev (h.good k hk') hw)

/-- No transaction is started before the one under way is over. -/
theorem start_apart (hs : Serves step start Good Inv Busy At len)
    (h : RestsAfter step Good Inv Busy s input m) (hn : m < n) (hlt : n < n')
    (hw : start (run step s input n) (input n) = some w)
    (hw' : start (run step s input n') (input n') = some w') : n+len < n' := by
  by_contra hle
  obtain ⟨j,rfl⟩ : ∃ j, n' = n+1+j := ⟨n'-n-1,by omega⟩
  exact (hs.starts (inv_run hs h (by omega)) hw').1 (hs.busy (at_run hs h hn hw (by omega)))

end FpgaTest.Transactions
