import Mathlib.Tactic

/-!
# Copies between two memories

A copy is a list of pairs, the address a value comes from and the address it
goes to, carried out from left to right. Nothing off the targets changes, and
where no address is a target twice every target ends with the value of its
source. Copies with the same pairs are the same copy, however they were cut
into pieces: `span_add` puts two neighbouring pieces together again.
-/
namespace FpgaTest.ByteCopies

variable {A B V : Type} [DecidableEq B]

def copyAll (source : A → V) (target : B → V) (pairs : List (A × B)) : B → V :=
  pairs.foldl (fun m p => Function.update m p.2 (source p.1)) target

@[simp] theorem copyAll_cons (source : A → V) (target : B → V) (p : A × B)
    (ps : List (A × B)) :
    copyAll source target (p::ps) =
      copyAll source (Function.update target p.2 (source p.1)) ps := rfl

theorem copyAll_append (source : A → V) (target : B → V) (ps qs : List (A × B)) :
    copyAll source target (ps++qs) = copyAll source (copyAll source target ps) qs :=
  List.foldl_append

theorem copyAll_outside (source : A → V) (target : B → V) {ps : List (A × B)} {b : B}
    (h : b ∉ ps.map Prod.snd) : copyAll source target ps b = target b := by
  induction ps generalizing target with
  | nil => rfl
  | cons p ps ih =>
      rw [List.map_cons,List.mem_cons,not_or] at h
      rw [copyAll_cons,ih _ h.2,Function.update_of_ne h.1]

theorem copyAll_target (source : A → V) (target : B → V) {ps : List (A × B)}
    (h : (ps.map Prod.snd).Nodup) {p : A × B} (hp : p ∈ ps) :
    copyAll source target ps p.2 = source p.1 := by
  induction ps generalizing target with
  | nil => exact absurd hp List.not_mem_nil
  | cons q qs ih =>
      rw [List.map_cons,List.nodup_cons] at h
      rcases List.mem_cons.mp hp with rfl | hp
      · rw [copyAll_cons,copyAll_outside _ _ h.1,Function.update_self]
      · exact ih _ h.2 hp

/-- The first `n` pairs were copied; of the ones behind them, up to some point, any
part may have been. -/
def CopiedUpTo (ps : List (A × B)) (source : A → V) (target target' : B → V) (n : ℕ) : Prop :=
  ∃ m, n ≤ m ∧ m ≤ ps.length ∧
    ∀ b ∉ ((ps.take m).drop n).map Prod.snd, target' b = copyAll source target (ps.take n) b

theorem CopiedUpTo.le_length {ps : List (A × B)} {source : A → V} {target target' : B → V}
    {n : ℕ} (h : CopiedUpTo ps source target target' n) : n ≤ ps.length := by
  rcases h with ⟨m,hnm,hm,_⟩
  exact hnm.trans hm

theorem copiedUpTo_append (ps qs rs : List (A × B)) (source : A → V) (target target' : B → V)
    (h : ∀ b ∉ qs.map Prod.snd, target' b = copyAll source target ps b) :
    CopiedUpTo (ps++(qs++rs)) source target target' ps.length := by
  refine ⟨ps.length+qs.length,Nat.le_add_right _ _,?_,?_⟩
  · rw [List.length_append,List.length_append]
    omega
  · rwa [← List.append_assoc,List.take_left' (List.length_append),List.drop_left,
      List.append_assoc,List.take_left]

theorem CopiedUpTo.eq_copyAll {ps : List (A × B)} {source : A → V} {target target' : B → V}
    (h : CopiedUpTo ps source target target' ps.length) : target' = copyAll source target ps := by
  rcases h with ⟨m,hnm,hm,hmem⟩
  funext b
  rw [List.take_length,List.drop_of_length_le (List.length_take_le' _ _)] at hmem
  exact hmem b List.not_mem_nil

theorem copiedUpTo_none (ps : List (A × B)) (source : A → V) (target : B → V) :
    CopiedUpTo ps source target target 0 :=
  ⟨0,le_rfl,Nat.zero_le _,fun _ _ => rfl⟩

theorem CopiedUpTo.extend {ps : List (A × B)} {source : A → V} {target target' : B → V} {n : ℕ}
    (h : CopiedUpTo ps source target target' n) (qs : List (A × B)) :
    CopiedUpTo (ps++qs) source target target' n := by
  rcases h with ⟨m,hnm,hm,hmem⟩
  refine ⟨m,hnm,?_,?_⟩
  · rw [List.length_append]
    omega
  · rwa [List.take_append_of_le_length hm,List.take_append_of_le_length (hnm.trans hm)]

theorem CopiedUpTo.trans {ps qs : List (A × B)} {source : A → V} {target mid target' : B → V}
    {k n : ℕ} (h : CopiedUpTo ps source target mid k) (hk : k = ps.length)
    (h' : CopiedUpTo qs source mid target' n) :
    CopiedUpTo (ps++qs) source target target' (k+n) := by
  subst hk
  rcases h' with ⟨m,hnm,hm,hmem⟩
  refine ⟨ps.length+m,by omega,by rw [List.length_append]; omega,?_⟩
  rw [List.take_length_add_append,List.take_length_add_append,List.drop_length_add_append,
    copyAll_append,← h.eq_copyAll]
  exact hmem

theorem CopiedUpTo.outside {ps : List (A × B)} {source : A → V} {target target' : B → V} {n : ℕ}
    (h : CopiedUpTo ps source target target' n) {b : B} (hb : b ∉ ps.map Prod.snd) :
    target' b = target b := by
  rcases h with ⟨m,_,_,hmem⟩
  have hsub : ∀ {qs : List (A × B)}, qs.Sublist ps → b ∉ qs.map Prod.snd := fun hqs hq =>
    hb ((hqs.map Prod.snd).mem hq)
  rw [hmem b (hsub ((List.drop_sublist _ _).trans (List.take_sublist _ _))),
    copyAll_outside _ _ (hsub (List.take_sublist _ _))]

theorem CopiedUpTo.placed {ps : List (A × B)} {source : A → V} {target target' : B → V} {n : ℕ}
    (h : CopiedUpTo ps source target target' n) (hnodup : (ps.map Prod.snd).Nodup)
    {p : A × B} (hp : p ∈ ps.take n) : target' p.2 = source p.1 := by
  rcases h with ⟨m,hnm,hm,hmem⟩
  have hmemp := List.mem_map_of_mem (f := Prod.snd) hp
  rw [← List.take_append_drop n ps,List.map_append,List.nodup_append] at hnodup
  rw [hmem p.2]
  · exact copyAll_target source target hnodup.1 hp
  · intro hlost
    apply hnodup.2.2 _ hmemp _ _ rfl
    rw [List.drop_take] at hlost
    exact ((List.take_sublist _ _).map Prod.snd).mem hlost

def AgreeOff (lost : B → Prop) (m m' : B → V) : Prop := ∀ b, ¬ lost b → m' b = m b

section Agree
variable {lost lost' : B → Prop} {m u m' : B → V} {source : A → V}

omit [DecidableEq B] in
theorem AgreeOff.refl (lost : B → Prop) (m : B → V) : AgreeOff lost m m := fun _ _ => rfl

omit [DecidableEq B] in
theorem AgreeOff.trans (h : AgreeOff lost m u) (h' : AgreeOff lost u m') : AgreeOff lost m m' :=
  fun b hb => (h' b hb).trans (h b hb)

omit [DecidableEq B] in
theorem AgreeOff.mono (h : AgreeOff lost m m') (hsub : ∀ b, lost b → lost' b) :
    AgreeOff lost' m m' := fun b hb => h b (mt (hsub b) hb)

theorem AgreeOff.update {b : B} (h : AgreeOff (fun x => lost x ∨ x = b) m m') (v : V) :
    AgreeOff lost (Function.update m b v) (Function.update m' b v) := by
  intro x hx
  by_cases hxb : x = b
  · rw [hxb,Function.update_self,Function.update_self]
  · rw [Function.update_of_ne hxb,Function.update_of_ne hxb]
    exact h x (not_or.mpr ⟨hx,hxb⟩)

theorem AgreeOff.copyAll_eq {ps : List (A × B)} (h : AgreeOff (· ∈ ps.map Prod.snd) m m') :
    ByteCopies.copyAll source m' ps = ByteCopies.copyAll source m ps := by
  induction ps generalizing m m' with
  | nil => exact funext fun b => h b List.not_mem_nil
  | cons p ps ih =>
      apply ih
      apply AgreeOff.update
      apply h.mono
      intro b hb
      rw [List.map_cons,List.mem_cons] at hb
      exact hb.symm

end Agree

variable {w : ℕ}

def span (a : BitVec w) (n : ℕ) : List (BitVec w) :=
  (List.range n).map fun i => a + BitVec.ofNat w i

@[simp] theorem span_zero (a : BitVec w) : span a 0 = [] := rfl

@[simp] theorem length_span (a : BitVec w) (n : ℕ) : (span a n).length = n := by simp [span]

theorem span_add (a : BitVec w) (m n : ℕ) :
    span a (m+n) = span a m ++ span (a + BitVec.ofNat w m) n := by
  rw [span,span,span,List.range_add,List.map_append,List.map_map]
  congr 1
  apply List.map_congr_left
  intro i _
  rw [Function.comp_apply,BitVec.ofNat_add,BitVec.add_assoc]

theorem nodup_span (a : BitVec w) {n : ℕ} (h : n ≤ 2^w) : (span a n).Nodup := by
  apply List.Nodup.map_on _ List.nodup_range
  intro i hi j hj he
  have he' : BitVec.ofNat w i = BitVec.ofNat w j := by simpa using he
  have hmod := congrArg BitVec.toNat he'
  rw [BitVec.toNat_ofNat,BitVec.toNat_ofNat] at hmod
  rw [List.mem_range] at hi hj
  rwa [Nat.mod_eq_of_lt (by omega),Nat.mod_eq_of_lt (by omega)] at hmod

theorem take_span (a : BitVec w) {m n : ℕ} (h : m ≤ n) : (span a n).take m = span a m := by
  rw [← Nat.add_sub_cancel' h,span_add,List.take_left' (length_span a m)]

end FpgaTest.ByteCopies
