import Mathlib.Tactic

/-!
# A byte-addressed memory

Memory is a function from addresses to bytes, so ranges need no allocation and
two ranges interact only through their addresses. `read` and `write` move whole
ranges. A read sees a write where they overlap and nothing of it where they do
not, and that is all later proofs use. Words are little-endian, `packU32` fails
on a value that does not fit as `struct.pack` does.
-/
namespace FpgaTest.ByteMemory

abbrev Byte := BitVec 8

abbrev Memory := ℕ → Byte

def write (m : Memory) (addr : ℕ) (bs : List Byte) : Memory :=
  fun a => if addr ≤ a then bs.getD (a - addr) (m a) else m a

def read (m : Memory) (addr len : ℕ) : List Byte := (List.range len).map fun i => m (addr + i)

/-- The low `n` bytes of a number, least significant first. -/
def toLe : ℕ → ℕ → List Byte
  | 0, _ => []
  | n+1, v => BitVec.ofNat 8 v :: toLe n (v/256)

def ofLe : List Byte → ℕ
  | [] => 0
  | b::bs => b.toNat + 256*ofLe bs

def packU32 (v : ℕ) : Option (List Byte) := if v < 2^32 then some (toLe 4 v) else none

def readU32 (m : Memory) (addr : ℕ) : ℕ := ofLe (read m addr 4)

/-- `pack_into`: the word at `offset` of a buffer is replaced. -/
def packInto (buf : List Byte) (offset v : ℕ) : Option (List Byte) :=
  if offset + 4 ≤ buf.length then
    (packU32 v).map fun bs => buf.take offset ++ bs ++ buf.drop (offset + 4)
  else none

variable {m : Memory} {addr : ℕ} {bs : List Byte}

@[simp] theorem length_read (m : Memory) (addr len : ℕ) : (read m addr len).length = len := by
  simp [read]

@[simp] theorem length_toLe (n v : ℕ) : (toLe n v).length = n := by
  induction n generalizing v with
  | zero => rfl
  | succ n ih => simp [toLe,ih]

theorem write_inside {a : ℕ} (hle : addr ≤ a) (hlt : a < addr + bs.length) :
    write m addr bs a = bs.getD (a - addr) 0 := by
  have hi : a - addr < bs.length := by omega
  simp [write,hle,List.getD_eq_getElem?_getD,List.getElem?_eq_getElem hi]

theorem write_outside {a : ℕ} (h : a < addr ∨ addr + bs.length ≤ a) : write m addr bs a = m a := by
  unfold write
  split_ifs with hle
  · rw [List.getD_eq_getElem?_getD,List.getElem?_eq_none (by omega)]
    rfl
  · rfl

theorem read_congr {m' : Memory} {len : ℕ} (h : ∀ a, addr ≤ a → a < addr + len → m a = m' a) :
    read m addr len = read m' addr len := by
  apply List.map_congr_left
  intro i hi
  exact h (addr+i) (by omega) (by have := List.mem_range.mp hi; omega)

theorem read_write_disjoint {other len : ℕ}
    (h : other + len ≤ addr ∨ addr + bs.length ≤ other) :
    read (write m addr bs) other len = read m other len := by
  apply read_congr
  intro a hle hlt
  exact write_outside (by omega)

theorem read_write_within (m : Memory) (addr offset len : ℕ) {bs : List Byte}
    (h : offset + len ≤ bs.length) :
    read (write m addr bs) (addr + offset) len = (bs.drop offset).take len := by
  apply List.ext_getElem
  · simp
    omega
  · intro i hi hi'
    rw [length_read] at hi
    simp only [read,List.getElem_map,List.getElem_range,List.getElem_take,List.getElem_drop]
    rw [write_inside (by omega) (by omega),show addr + offset + i - addr = offset + i by omega]
    rw [List.getD_eq_getElem?_getD,List.getElem?_eq_getElem (by omega),Option.getD_some]

theorem read_write_self (m : Memory) (addr : ℕ) (bs : List Byte) :
    read (write m addr bs) addr bs.length = bs := by
  simpa using @read_write_within m addr 0 bs.length bs (by omega)

theorem read_add (m : Memory) (addr len len' : ℕ) :
    read m addr (len + len') = read m addr len ++ read m (addr + len) len' := by
  simp [read,List.range_add,Nat.add_assoc,Function.comp_def]

theorem read_take {len k : ℕ} (h : k ≤ len) : (read m addr len).take k = read m addr k := by
  obtain ⟨d,rfl⟩ := Nat.exists_eq_add_of_le h
  rw [read_add,List.take_left' (length_read m addr k)]

theorem read_drop {len k : ℕ} (h : k ≤ len) :
    (read m addr len).drop k = read m (addr + k) (len - k) := by
  obtain ⟨d,rfl⟩ := Nat.exists_eq_add_of_le h
  rw [read_add,List.drop_left' (length_read m addr k),Nat.add_sub_cancel_left]

theorem read_eq_iff (m : Memory) (addr : ℕ) (bs : List Byte) :
    read m addr bs.length = bs ↔ ∀ i < bs.length, m (addr + i) = bs.getD i 0 := by
  constructor
  · intro h i hi
    have hget := congrArg (fun l => l.getD i 0) h
    simpa [ByteMemory.read,hi] using hget
  · intro h
    apply List.ext_getElem (length_read m addr bs.length)
    intro i hi hi'
    simpa [ByteMemory.read,hi'] using h i hi'

theorem ofLe_toLe (n v : ℕ) : ofLe (toLe n v) = v % 256^n := by
  induction n generalizing v with
  | zero => simp [toLe,ofLe,Nat.mod_one]
  | succ n ih =>
      have hmod : v % (256*256^n) = v % 256 + 256*(v/256 % 256^n) := Nat.mod_mul
      rw [toLe,ofLe,ih,BitVec.toNat_ofNat,pow_succ' 256 n,hmod]

theorem ofLe_toLe_four {v : ℕ} (h : v < 2^32) : ofLe (toLe 4 v) = v := by
  rw [ofLe_toLe,Nat.mod_eq_of_lt (by omega)]

theorem packInto_append (x old y : List Byte) {offset v : ℕ} (hx : x.length = offset)
    (hold : old.length = 4) (hv : v < 2^32) :
    packInto (x ++ old ++ y) offset v = some (x ++ toLe 4 v ++ y) := by
  have hfit : offset + 4 ≤ (x ++ old ++ y).length := by
    rw [List.length_append,List.length_append]
    omega
  have htake : (x ++ old ++ y).take offset = x := by
    rw [List.append_assoc,List.take_left' hx]
  have hdrop : (x ++ old ++ y).drop (offset + 4) = y := by
    rw [List.drop_left' (by rw [List.length_append]; omega)]
  rw [packInto,if_pos hfit,packU32,if_pos hv,Option.map_some,htake,hdrop]

theorem word_append (x word y : List Byte) {offset : ℕ} (hx : x.length = offset)
    (hw : word.length = 4) : ((x ++ word ++ y).drop offset).take 4 = word := by
  rw [List.append_assoc,List.drop_left' hx,List.take_left' hw]

end FpgaTest.ByteMemory
