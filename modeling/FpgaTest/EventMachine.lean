import Mathlib.Tactic

/-!
# Runs of a partial machine with outputs

A step consumes one event and yields the next state and the outputs of that
step, or has no result when the event is impossible in the state. A run is a
list of events that are possible one after the other; its outputs are those of
its steps in order.
-/
namespace FpgaTest.EventMachine

variable {S E O : Type}

def run (step : S → E → Option (S × List O)) : S → List E → Option (S × List O)
  | s, [] => some (s,[])
  | s, e::es =>
      (step s e).bind fun a => (run step a.1 es).map fun b => (b.1,a.2 ++ b.2)

variable {step : S → E → Option (S × List O)}

theorem run_cons_iff {s t : S} {e : E} {es : List E} {out : List O} :
    run step s (e::es) = some (t,out) ↔
      ∃ u a b, step s e = some (u,a) ∧ run step u es = some (t,b) ∧ out = a ++ b := by
  simp only [run,Option.bind_eq_some_iff,Option.map_eq_some_iff,Prod.exists,Prod.mk.injEq]
  constructor
  · rintro ⟨u,a,hstep,v,b,hrun,rfl,rfl⟩
    exact ⟨u,a,b,hstep,hrun,rfl⟩
  · rintro ⟨u,a,b,hstep,hrun,rfl⟩
    exact ⟨u,a,hstep,t,b,hrun,rfl,rfl⟩

theorem run_append_iff {s t : S} {xs ys : List E} {out : List O} :
    run step s (xs ++ ys) = some (t,out) ↔
      ∃ u a b, run step s xs = some (u,a) ∧ run step u ys = some (t,b) ∧ out = a ++ b := by
  induction xs generalizing s out with
  | nil =>
      constructor
      · intro h
        exact ⟨s,[],out,rfl,h,rfl⟩
      · rintro ⟨u,a,b,hnil,hys,rfl⟩
        obtain ⟨rfl,rfl⟩ : s = u ∧ [] = a := by simpa [run] using hnil
        simpa using hys
  | cons x xs ih =>
      rw [List.cons_append,run_cons_iff]
      constructor
      · rintro ⟨u,a,b,hx,hrest,rfl⟩
        obtain ⟨v,c,d,hxs,hys,rfl⟩ := ih.mp hrest
        exact ⟨v,a ++ c,d,run_cons_iff.mpr ⟨u,a,c,hx,hxs,rfl⟩,hys,by rw [List.append_assoc]⟩
      · rintro ⟨u,a,b,hxs,hys,rfl⟩
        obtain ⟨v,c,d,hx,htail,rfl⟩ := run_cons_iff.mp hxs
        exact ⟨v,c,d ++ b,hx,ih.mpr ⟨u,d,b,htail,hys,rfl⟩,by rw [List.append_assoc]⟩

theorem run_concat {s t u : S} {xs : List E} {e : E} {a b : List O}
    (hxs : run step s xs = some (t,a)) (he : step t e = some (u,b)) :
    run step s (xs ++ [e]) = some (u,a ++ b) :=
  run_append_iff.mpr ⟨t,a,b,hxs,run_cons_iff.mpr ⟨u,b,[],he,rfl,(List.append_nil b).symm⟩,rfl⟩

theorem run_concat_iff {s u : S} {xs : List E} {e : E} {out : List O} :
    run step s (xs ++ [e]) = some (u,out) ↔
      ∃ t a b, run step s xs = some (t,a) ∧ step t e = some (u,b) ∧ out = a ++ b := by
  constructor
  · intro h
    obtain ⟨t,a,c,hxs,hlast,rfl⟩ := run_append_iff.mp h
    obtain ⟨v,b,d,he,hnil,rfl⟩ := run_cons_iff.mp hlast
    obtain ⟨rfl,rfl⟩ : v = u ∧ [] = d := by simpa [run] using hnil
    exact ⟨t,a,b,hxs,he,by rw [List.append_nil]⟩
  · rintro ⟨t,a,b,hxs,he,rfl⟩
    exact run_concat hxs he

theorem run_invariant {P : S → Prop}
    (hstep : ∀ s e t out, P s → step s e = some (t,out) → P t) {s t : S} {es : List E}
    {out : List O} (hs : P s) (hrun : run step s es = some (t,out)) : P t := by
  induction es generalizing s out with
  | nil =>
      cases hrun
      exact hs
  | cons e es ih =>
      obtain ⟨u,a,b,he,hrest,rfl⟩ := run_cons_iff.mp hrun
      exact ih (hstep s e u a hs he) hrest

end FpgaTest.EventMachine
