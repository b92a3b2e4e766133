import FpgaTest.BusAccess

/-!
# A master that issues one access after the other

The processor reaches the register slave through `Xil_Out32` and `Xil_In32`,
each of which returns when its access has been answered. A trace performs a
list of accesses when each of them is carried through its handshakes before the
next one is presented, with any number of quiet edges between them.

A write reaches its register at the first edge at which it is presented, ready
or not, so the three words that can be written follow the list by themselves. A
read of the count word returns the count of two edges before.
-/
namespace FpgaTest.BusMaster
open ClockedMachine CounterSlave BusAccess

/-- A call of `Xil_Out32`, or one of `Xil_In32` with the value it returns. -/
inductive Access where
  | write (addr : BitVec 4) (data : BitVec 32)
  | read (addr : BitVec 4) (answer : BitVec 32)
  deriving DecidableEq, Repr

/-- The three words that can be written. -/
structure Settings where
  delay : BitVec 32
  width : BitVec 32
  config : BitVec 32
  deriving DecidableEq, Repr

def settings (s : State) : Settings := ⟨s.regs.slvReg1,s.regs.slvReg2,s.regs.slvReg3⟩

def Settings.store (t : Settings) (w : BitVec 2) (data : BitVec 32) : Settings where
  delay := if w = 1 then data else t.delay
  width := if w = 2 then data else t.width
  config := if w = 3 then data else t.config

def Settings.perform (t : Settings) : Access → Settings
  | .write addr data => t.store (word addr) data
  | .read _ _ => t

/-- No address and no data are presented. -/
structure Quiet (i : Input) : Prop where
  awvalid : i.awvalid = false
  wvalid : i.wvalid = false
  arvalid : i.arvalid = false

/-- The accesses are performed in order between the two edges. -/
inductive Performs (s : State) (input : ℕ → Input) : ℕ → List Access → ℕ → Prop
  | done (n : ℕ) : Performs s input n [] n
  | wait {n m : ℕ} {as : List Access} : Quiet (input n) → Performs s input (n+1) as m →
      Performs s input n as m
  | write {addr : BitVec 4} {data : BitVec 32} {p w b m : ℕ} {as : List Access} :
      WriteAccess s input addr data p w b →
      (∀ k, p ≤ k → k ≤ b → (input k).arvalid = false) →
      (∀ k, w < k → k ≤ b → (input k).awvalid = false ∧ (input k).wvalid = false) →
      Performs s input (b+1) as m → Performs s input p (.write addr data::as) m
  | read {addr : BitVec 4} {p a r m : ℕ} {as : List Access} :
      ReadAccess s input addr p a r →
      (∀ k, p ≤ k → k ≤ r → (input k).awvalid = false ∧ (input k).wvalid = false) →
      (∀ k, a < k → k ≤ r → (input k).arvalid = false) →
      Performs s input (r+1) as m →
      Performs s input p (.read addr (rdata (run (step false) s input r))::as) m

variable {s : State} {input : ℕ → Input}

theorem Performs.le {n m : ℕ} {as : List Access} (h : Performs s input n as m) : n ≤ m := by
  induction h with
  | done n => exact le_rfl
  | wait _ _ ih => omega
  | write hw _ _ _ ih =>
      have hstart := hw.start
      have hlater := hw.later
      omega
  | read hr _ _ _ ih =>
      have hstart := hr.start
      have hlater := hr.later
      omega

theorem Performs.append {n k m : ℕ} {as bs : List Access} (ha : Performs s input n as k)
    (hb : Performs s input k bs m) : Performs s input n (as ++ bs) m := by
  induction ha with
  | done n => exact hb
  | wait hq _ ih => exact .wait hq (ih hb)
  | write hw har hquiet _ ih => exact .write hw har hquiet (ih hb)
  | read hr haw hquiet _ ih => exact .read hr haw hquiet (ih hb)

/-- A list in two parts is performed in two stretches. -/
theorem Performs.split {n m : ℕ} {as bs : List Access} (h : Performs s input n (as ++ bs) m) :
    ∃ k, Performs s input n as k ∧ Performs s input k bs m := by
  generalize hl : as ++ bs = l at h
  induction h generalizing as with
  | done n =>
      rcases List.append_eq_nil_iff.mp hl with ⟨rfl,rfl⟩
      exact ⟨n,.done n,.done n⟩
  | wait hq hrest ih =>
      rcases ih hl with ⟨k,ha,hb⟩
      exact ⟨k,.wait hq ha,hb⟩
  | write hw har hquiet hrest ih =>
      cases as with
      | nil =>
          rw [List.nil_append] at hl
          subst hl
          exact ⟨_,.done _,.write hw har hquiet hrest⟩
      | cons a as =>
          rw [List.cons_append,List.cons_eq_cons] at hl
          rcases hl with ⟨rfl,hl⟩
          rcases ih hl with ⟨k,ha,hb⟩
          exact ⟨k,.write hw har hquiet ha,hb⟩
  | read hr haw hquiet hrest ih =>
      cases as with
      | nil =>
          rw [List.nil_append] at hl
          subst hl
          exact ⟨_,.done _,.read hr haw hquiet hrest⟩
      | cons a as =>
          rw [List.cons_append,List.cons_eq_cons] at hl
          rcases hl with ⟨rfl,hl⟩
          rcases ih hl with ⟨k,ha,hb⟩
          exact ⟨k,.read hr haw hquiet ha,hb⟩

theorem settings_quiet {i : Input} (s : State) (hr : i.aresetn = true) (hd : i.wvalid = false) :
    settings (step false s i) = settings s := by
  simp [settings,Registers.step_eq hr,hd]

theorem settings_presented {i : Input} (s : State) (hr : i.aresetn = true)
    (hv : i.awvalid = true) (hd : i.wvalid = true) (hstrb : i.wstrb = 15) :
    settings (step false s i) = (settings s).store (word i.awaddr) i.wdata := by
  have hword : writeWord s.write i = word i.awaddr := if_pos hv
  simp only [settings,Settings.store,step_regs,Registers.step_eq hr,hd,hword,hstrb,true_and,
    writeStrobed_all]

theorem Settings.store_store (t : Settings) (w : BitVec 2) (data : BitVec 32) :
    (t.store w data).store w data = t.store w data := by
  simp only [Settings.store]
  congr 1
  · split_ifs <;> rfl
  · split_ifs <;> rfl
  · split_ifs <;> rfl

section NoReset
variable (hr : ∀ k, (input k).aresetn = true)
include hr

theorem settings_kept {n m : ℕ} (hnm : n ≤ m)
    (hquiet : ∀ k, n ≤ k → k < m → (input k).wvalid = false) :
    settings (run (step false) s input m) = settings (run (step false) s input n) := by
  induction m, hnm using Nat.le_induction with
  | base => rfl
  | succ m hnm ih =>
      rw [run_succ,settings_quiet _ (hr m) (hquiet m hnm (Nat.lt_succ_self m)),
        ih fun k hk hkm => hquiet k hk (Nat.lt_succ_of_lt hkm)]

theorem settings_written {addr : BitVec 4} {data : BitVec 32} {p w b : ℕ}
    (h : WriteAccess s input addr data p w b)
    (hquiet : ∀ k, w < k → k ≤ b → (input k).awvalid = false ∧ (input k).wvalid = false)
    (n : ℕ) (hn : p+1 ≤ n) (hnb : n ≤ b+1) :
    settings (run (step false) s input n) =
      (settings (run (step false) s input p)).perform (.write addr data) := by
  induction n, hn using Nat.le_induction with
  | base =>
      rcases h.presented p le_rfl h.start with ⟨hv,hd,ha,hdata,hstrb⟩
      rw [run_succ,settings_presented _ (hr p) hv hd hstrb,ha,hdata]
      rfl
  | succ n hn ih =>
      by_cases hw : n ≤ w
      · rcases h.presented n (by omega) hw with ⟨hv,hd,ha,hdata,hstrb⟩
        rw [run_succ,settings_presented _ (hr n) hv hd hstrb,ih (by omega),ha,hdata]
        exact Settings.store_store _ _ _
      · rw [run_succ,settings_quiet _ (hr n) (hquiet n (by omega) (by omega)).2]
        exact ih (by omega)

/-- The first write of a list: the settings stay up to the edge at which it is
presented and follow it from the next one. -/
theorem Performs.first_write {n m : ℕ} {addr : BitVec 4} {data : BitVec 32} {as : List Access}
    (h : Performs s input n (.write addr data::as) m) :
    ∃ p b, n ≤ p ∧ p < b ∧ Performs s input (b+1) as m ∧
      (∀ k, n ≤ k → k ≤ p →
        settings (run (step false) s input k) = settings (run (step false) s input n)) ∧
      ∀ k, p < k → k ≤ b+1 → settings (run (step false) s input k) =
        (settings (run (step false) s input n)).perform (.write addr data) := by
  generalize hl : Access.write addr data::as = l at h
  induction h with
  | done n => cases hl
  | read => cases hl
  | @wait n m as hq hrest ih =>
      rcases ih hl with ⟨p,b,hnp,hpb,hlast,hbefore,hafter⟩
      have hstep : settings (run (step false) s input (n+1)) =
          settings (run (step false) s input n) := settings_quiet _ (hr n) hq.wvalid
      refine ⟨p,b,by omega,hpb,hlast,?_,?_⟩
      · intro k hk hkp
        rcases Nat.eq_or_lt_of_le hk with rfl | hlt
        · rfl
        · rw [hbefore k hlt hkp,hstep]
      · intro k hpk hkb
        rw [hafter k hpk hkb,hstep]
  | @write addr data p w b m as hw har hquiet hrest ih =>
      cases hl
      have hstart := hw.start
      have hlater := hw.later
      refine ⟨p,b,le_rfl,by omega,hrest,?_,?_⟩
      · intro k hk hkp
        rw [Nat.le_antisymm hkp hk]
      · exact settings_written hr hw hquiet

/-- A read leaves the settings as they are and returns the word it addresses. -/
theorem Performs.first_read {n m : ℕ} {addr : BitVec 4} {answer : BitVec 32} {as : List Access}
    (h : Performs s input n (.read addr answer::as) m) (hs : s.read.Consistent) :
    ∃ r, n < r ∧ Performs s input (r+1) as m ∧
      answer = rdata (run (step false) s input r) ∧
      (run (step false) s input r).read.araddr = addr ∧
      (run (step false) s input r).read.rvalid = true ∧ (input r).rready = true ∧
      ∀ k, n ≤ k → k ≤ r+1 →
        settings (run (step false) s input k) = settings (run (step false) s input n) := by
  generalize hl : Access.read addr answer::as = l at h
  induction h with
  | done n => cases hl
  | write => cases hl
  | @wait n m as hq hrest ih =>
      rcases ih hl with ⟨r,hnr,hlast,hans,haddr,hvalid,hready,hkeep⟩
      have hstep : settings (run (step false) s input (n+1)) =
          settings (run (step false) s input n) := settings_quiet _ (hr n) hq.wvalid
      refine ⟨r,by omega,hlast,hans,haddr,hvalid,hready,?_⟩
      intro k hk hkr
      rcases Nat.eq_or_lt_of_le hk with rfl | hlt
      · rfl
      · rw [hkeep k hlt hkr,hstep]
  | @read addr p a r m as hread haw hquiet hrest ih =>
      cases hl
      have hstart := hread.start
      have hlater := hread.later
      refine ⟨r,by omega,hrest,rfl,araddr_held hs hr hread hquiet r hlater le_rfl,
        hread.answered.1,hread.answered.2,?_⟩
      intro k hk hkr
      exact settings_kept hr hk fun j hj hjk => (haw j hj (by omega)).2

/-- What holds of the settings before the accesses and is kept by each of them
holds at every edge up to the last. -/
theorem Performs.invariant {n m : ℕ} {as : List Access} (h : Performs s input n as m)
    (P : Settings → Prop) (hn : P (settings (run (step false) s input n)))
    (hstep : ∀ a ∈ as, ∀ t, P t → P (t.perform a)) (k : ℕ) (hk : n ≤ k) (hkm : k ≤ m) :
    P (settings (run (step false) s input k)) := by
  induction h with
  | done n =>
      rw [Nat.le_antisymm hkm hk]
      exact hn
  | @wait n m as hq hrest ih =>
      rcases Nat.eq_or_lt_of_le hk with rfl | hlt
      · exact hn
      · refine ih ?_ hstep hlt hkm
        rw [run_succ,settings_quiet _ (hr n) hq.wvalid]
        exact hn
  | @write addr data p w b m as hw har hquiet hrest ih =>
      have hstart := hw.start
      have hlater := hw.later
      have hwritten := settings_written hr hw hquiet
      have hnext := hstep (.write addr data) List.mem_cons_self _ hn
      rcases Nat.eq_or_lt_of_le hk with rfl | hlt
      · exact hn
      · rcases Nat.lt_or_ge (b+1) k with hbk | hkb
        · refine ih ?_ (fun a ha => hstep a (List.mem_cons_of_mem _ ha)) hbk.le hkm
          rw [hwritten (b+1) (by omega) le_rfl]
          exact hnext
        · rw [hwritten k hlt hkb]
          exact hnext
  | @read addr p a r m as hread haw hquiet hrest ih =>
      have hstart := hread.start
      have hlater := hread.later
      have hkept : ∀ j, p ≤ j → j ≤ r+1 → settings (run (step false) s input j) =
          settings (run (step false) s input p) := fun j hj hjr =>
        settings_kept hr hj fun i hi hij => (haw i hi (by omega)).2
      rcases Nat.lt_or_ge (r+1) k with hrk | hkr
      · refine ih ?_ (fun a ha => hstep a (List.mem_cons_of_mem _ ha)) hrk.le hkm
        rw [hkept (r+1) (by omega) le_rfl]
        exact hn
      · rw [hkept k hk hkr]
        exact hn

theorem Performs.settings_end {n m : ℕ} {as : List Access} (h : Performs s input n as m) :
    settings (run (step false) s input m) =
      as.foldl Settings.perform (settings (run (step false) s input n)) := by
  induction h with
  | done n => rfl
  | @wait n m as hq hrest ih => rw [ih,run_succ,settings_quiet _ (hr n) hq.wvalid]
  | @write addr data p w b m as hw har hquiet hrest ih =>
      have hstart := hw.start
      have hlater := hw.later
      rw [ih,settings_written hr hw hquiet (b+1) (by omega) le_rfl,List.foldl_cons]
  | @read addr p a r m as hread haw hquiet hrest ih =>
      have hstart := hread.start
      have hlater := hread.later
      rw [ih,settings_kept hr (n := p) (by omega) fun k hk hkr => (haw k hk (by omega)).2]
      rfl

end NoReset

theorem Performs.write_once {p m : ℕ} {addr : BitVec 4} {data : BitVec 32} {as : List Access}
    (hin : (input p).awvalid = true ∧ (input p).wvalid = true ∧ (input p).awaddr = addr ∧
      (input p).wdata = data ∧ (input p).wstrb = 15)
    (htaken : (run (step false) s input p).write.awready = true ∧
      (run (step false) s input p).write.wready = true)
    (hans : (run (step false) s input (p+1)).write.bvalid = true ∧ (input (p+1)).bready = true)
    (hquiet : (input p).arvalid = false ∧ (input (p+1)).arvalid = false ∧
      (input (p+1)).awvalid = false ∧ (input (p+1)).wvalid = false)
    (h : Performs s input (p+2) as m) : Performs s input p (.write addr data::as) m := by
  refine .write (writeAccess_once hin htaken hans) ?_ ?_ h
  · intro k hk hkp
    obtain rfl | rfl : k = p ∨ k = p+1 := by omega
    · exact hquiet.1
    · exact hquiet.2.1
  · intro k hk hkp
    obtain rfl : k = p+1 := by omega
    exact hquiet.2.2

end FpgaTest.BusMaster
