import Nachos.FileSys.Sector

/-! `userprog/bitmap.cc`: a bitmap packed into words. -/

namespace Nachos
open Lib

structure BitMap where
  numBits : Nat
  map : List Word
  size : map.length = (numBits + 31) / 32

namespace BitMap

def numWords (m : BitMap) : Nat := m.map.length

/-- The word assignments of `Mark`, `Clear` and `Test`, past their assertion. -/
def setWord (m : BitMap) (i : Nat) (w : Word) : BitMap :=
  { m with map := m.map.set i w, size := by simp [m.size] }

def markBit (m : BitMap) (which : Nat) : BitMap :=
  m.setWord (which / 32) (m.map.getD (which / 32) 0 ||| 1#32 <<< (which % 32))

def clearBit (m : BitMap) (which : Nat) : BitMap :=
  m.setWord (which / 32) (m.map.getD (which / 32) 0 &&& ~~~(1#32 <<< (which % 32)))

def testBit (m : BitMap) (which : Nat) : Bool :=
  (m.map.getD (which / 32) 0 &&& 1#32 <<< (which % 32)) != 0

/-- The bit that an `int` argument selects, if it passes the assertion. -/
def bit (m : BitMap) (which : Int) : Option Nat :=
  if 0 ≤ which ∧ which < m.numBits then some which.toNat else none

def mark (m : BitMap) (which : Int) : Option BitMap := (m.bit which).map m.markBit

def clear (m : BitMap) (which : Int) : Option BitMap := (m.bit which).map m.clearBit

def test (m : BitMap) (which : Int) : Option Bool := (m.bit which).map m.testBit

/-- The constructor: fresh memory in which every bit is cleared in turn. -/
def new (memory : Nat → Word) (nitems : Nat) : BitMap :=
  (List.range nitems).foldl clearBit
    { numBits := nitems, map := (List.range ((nitems + 31) / 32)).map memory, size := by simp }

def find (m : BitMap) : Int × BitMap :=
  match (List.range m.numBits).find? fun i => !m.testBit i with
  | some i => (i, m.markBit i)
  | none => (-1, m)

def numClear (m : BitMap) : Nat := (List.range m.numBits).countP fun i => !m.testBit i

def toBytes (m : BitMap) : List Byte := bytesOfWords m.map

def load (m : BitMap) (bytes : List Byte) : BitMap where
  numBits := m.numBits
  map := wordsOfBytes ((bytes ++ m.toBytes.drop bytes.length).take (4 * m.numWords))
  size := by
    have := m.size
    simp only [length_wordsOfBytes, toBytes, numWords, List.length_take, List.length_append,
      List.length_drop, length_bytesOfWords]
    omega

variable {m m' : BitMap} {i j : Nat}

theorem getLsbD_mask {k : Nat} (hi : i < 32) : (1#32 <<< i).getLsbD k = decide (k = i) := by
  rw [BitVec.getLsbD_shiftLeft, BitVec.getLsbD_one]
  grind

theorem testBit_eq (m : BitMap) (i : Nat) :
    m.testBit i = (m.map.getD (i / 32) 0).getLsbD (i % 32) := by
  have h : i % 32 < 32 := Nat.mod_lt _ (by decide)
  have hz : m.map.getD (i / 32) 0 &&& 1#32 <<< (i % 32) = 0#32 ↔
      (m.map.getD (i / 32) 0).getLsbD (i % 32) = false := by
    simp only [BitVec.eq_of_getLsbD_eq_iff, BitVec.getLsbD_and, getLsbD_mask h, BitVec.getLsbD_zero]
    grind
  rw [testBit, Bool.eq_iff_iff, bne_iff_ne]
  exact (not_congr hz).trans (Bool.not_eq_false _).to_iff

@[simp] theorem numBits_markBit : (m.markBit i).numBits = m.numBits := rfl

@[simp] theorem numBits_clearBit : (m.clearBit i).numBits = m.numBits := rfl

theorem getD_setWord (k k' : Nat) (w : Word) (h : k < m.map.length) :
    (m.setWord k w).map.getD k' 0 = if k' = k then w else m.map.getD k' 0 := by
  simp only [setWord, List.getD_eq_getElem?_getD, List.getElem?_set]
  grind

theorem testBit_markBit (hi : i < m.numBits) :
    (m.markBit i).testBit j = (decide (j = i) || m.testBit j) := by
  have hl : i / 32 < m.map.length := by rw [m.size]; omega
  rw [testBit_eq, testBit_eq, markBit, getD_setWord _ _ _ hl]
  by_cases hw : j / 32 = i / 32
  · rw [if_pos hw, hw, BitVec.getLsbD_or, getLsbD_mask (Nat.mod_lt _ (by decide)), Bool.or_comm]
    congr 1
    grind
  · grind

theorem testBit_clearBit (hi : i < m.numBits) :
    (m.clearBit i).testBit j = (!decide (j = i) && m.testBit j) := by
  have hl : i / 32 < m.map.length := by rw [m.size]; omega
  rw [testBit_eq, testBit_eq, clearBit, getD_setWord _ _ _ hl]
  by_cases hw : j / 32 = i / 32
  · have hj : j % 32 < 32 := Nat.mod_lt _ (by decide)
    rw [if_pos hw, hw, BitVec.getLsbD_and, BitVec.getLsbD_not,
      getLsbD_mask (Nat.mod_lt _ (by decide)),
      decide_eq_true hj, Bool.true_and, Bool.and_comm]
    grind
  · grind

@[simp] theorem numBits_find (m : BitMap) : m.find.2.numBits = m.numBits := by
  rw [find]
  split <;> rfl

/-! ## The clear bits -/

/-- The clear bits, in the order in which `find` takes them. -/
def free (m : BitMap) : List Nat := (List.range m.numBits).filter fun i => !m.testBit i

theorem mem_free : i ∈ m.free ↔ i < m.numBits ∧ m.testBit i = false := by
  simp [free]

theorem free_sorted (m : BitMap) : m.free.Pairwise (· < ·) :=
  List.pairwise_lt_range.filter _

theorem free_nodup (m : BitMap) : m.free.Nodup := m.free_sorted.imp fun h => Nat.ne_of_lt h

theorem numClear_eq (m : BitMap) : m.numClear = m.free.length := List.countP_eq_length_filter

theorem find_of_free_nil (h : m.free = []) : m.find = (-1, m) := by
  have hf : (List.range m.numBits).find? (fun i => !m.testBit i) = none := by
    rw [List.find?_eq_none]
    intro i hi
    exact List.filter_eq_nil_iff.mp h i hi
  rw [find, hf]

theorem find_of_free_cons {rest : List Nat} (h : m.free = i :: rest) :
    m.find = ((i : Int), m.markBit i) := by
  have hf : (List.range m.numBits).find? (fun i => !m.testBit i) = some i := by
    rw [← List.head?_filter]
    exact congrArg List.head? h
  rw [find, hf]

theorem free_markBit {rest : List Nat} (h : m.free = i :: rest) : (m.markBit i).free = rest := by
  have hi : i ∈ m.free := h ▸ List.mem_cons_self ..
  have hnd := m.free_nodup
  have hfun : (fun j => !(m.markBit i).testBit j) = fun j => (j != i) && !m.testBit j := by
    funext j
    rw [testBit_markBit (mem_free.mp hi).1]
    simp [bne, Bool.beq_eq_decide_eq]
  rw [free, hfun, ← List.filter_filter, numBits_markBit]
  change m.free.filter (· != i) = rest
  rw [h] at hnd ⊢
  rw [List.filter_cons_of_neg (by simp), List.filter_eq_self]
  intro j hj
  simpa using fun e : j = i => (List.nodup_cons.mp hnd).1 (e ▸ hj)

theorem free_find (m : BitMap) : m.find.2.free = m.free.drop 1 := by
  cases h : m.free with
  | nil => rw [find_of_free_nil h, h, List.drop_nil]
  | cons i rest => rw [find_of_free_cons h, free_markBit h, List.drop_one, List.tail_cons]

def markAll (m : BitMap) (xs : List Nat) : BitMap := xs.foldl markBit m

@[simp] theorem markAll_nil : m.markAll [] = m := rfl

@[simp] theorem markAll_cons (x : Nat) (xs : List Nat) :
    m.markAll (x :: xs) = (m.markBit x).markAll xs := rfl

@[simp] theorem markAll_append (xs ys : List Nat) :
    m.markAll (xs ++ ys) = (m.markAll xs).markAll ys := List.foldl_append

@[simp] theorem numBits_markAll (xs : List Nat) : (m.markAll xs).numBits = m.numBits := by
  induction xs generalizing m with
  | nil => rfl
  | cons x xs ih => rw [markAll_cons, ih, numBits_markBit]

theorem testBit_markAll {xs : List Nat} (h : ∀ x ∈ xs, x < m.numBits) (j : Nat) :
    (m.markAll xs).testBit j = (decide (j ∈ xs) || m.testBit j) := by
  induction xs generalizing m with
  | nil => simp
  | cons x xs ih =>
    rw [markAll_cons, ih (m := m.markBit x) fun y hy => h y (List.mem_cons_of_mem _ hy),
      testBit_markBit (h x (List.mem_cons_self ..))]
    by_cases hj : j = x <;> simp [hj]

theorem free_markAll {xs rest : List Nat} (h : m.free = xs ++ rest) :
    (m.markAll xs).free = rest := by
  induction xs generalizing m with
  | nil => exact h
  | cons x xs ih => exact ih (free_markBit h)

structure Cleared (m : BitMap) (xs : List Nat) (m' : BitMap) : Prop where
  numBits : m'.numBits = m.numBits
  testBit : ∀ x, m'.testBit x = (m.testBit x && !decide (x ∈ xs))

namespace Cleared
variable {xs ys : List Nat} {m'' : BitMap}

theorem nil (m : BitMap) : m.Cleared [] m := ⟨rfl, by simp⟩

theorem trans (h : m.Cleared xs m') (h' : m'.Cleared ys m'') : m.Cleared (xs ++ ys) m'' :=
  ⟨h'.numBits.trans h.numBits, fun x => by
    rw [h'.testBit, h.testBit]
    by_cases hx : x ∈ xs <;> by_cases hy : x ∈ ys <;> simp [hx, hy]⟩

theorem clearBit {x : Nat} (hx : x < m.numBits) : m.Cleared [x] (m.clearBit x) :=
  ⟨rfl, fun y => by rw [testBit_clearBit hx]; by_cases hy : y = x <;> simp [hy]⟩

theorem congr (h : m.Cleared xs m') (hp : ∀ x, x ∈ xs ↔ x ∈ ys) : m.Cleared ys m' :=
  ⟨h.numBits, fun x => by rw [h.testBit]; simp [hp]⟩

end Cleared

theorem mark_sector {x : Nat} (hx : x < m.numBits) : m.mark (x : Int) = some (m.markBit x) := by
  simp [mark, bit, hx]

theorem clear_sector {x : Nat} (hx : x < m.numBits) : m.clear (x : Int) = some (m.clearBit x) := by
  simp [clear, bit, hx]

theorem test_sector {x : Nat} (hx : x < m.numBits) : m.test (x : Int) = some (m.testBit x) := by
  simp [test, bit, hx]

/-! ## The map as bytes -/

@[simp] theorem length_toBytes (m : BitMap) : m.toBytes.length = 4 * m.numWords :=
  length_bytesOfWords _

theorem ext' (hn : m.numBits = m'.numBits) (hm : m.map = m'.map) : m = m' := by
  cases m; cases m'; simp_all

theorem ext_testBit (hn : m.numBits = m'.numBits) (h32 : 32 ∣ m.numBits)
    (h : ∀ i < m.numBits, m.testBit i = m'.testBit i) : m = m' := by
  have hl := m.size
  have hl' := m'.size
  refine ext' hn (List.ext_getElem (by rw [hl, hl', hn]) fun k hk hk' => ?_)
  refine BitVec.eq_of_getLsbD_eq fun j hj => ?_
  have hb := h (32 * k + j) (by omega)
  rw [testBit_eq, testBit_eq, show (32 * k + j) / 32 = k by omega,
    show (32 * k + j) % 32 = j by omega] at hb
  simpa only [List.getD_eq_getElem?_getD, List.getElem?_eq_getElem hk,
    List.getElem?_eq_getElem hk', Option.getD_some] using hb

theorem load_toBytes (h : m.numBits = m'.numBits) : m.load m'.toBytes = m' := by
  have hw : m.numWords = m'.numWords := by rw [numWords, numWords, m.size, m'.size, h]
  refine ext' h ?_
  have hd : m.toBytes.drop m'.toBytes.length = [] :=
    List.drop_of_length_le (by rw [length_toBytes, length_toBytes, hw])
  rw [load]
  simp only [hd, List.append_nil]
  rw [List.take_of_length_le (by rw [length_toBytes, hw]), toBytes, wordsOfBytes_bytesOfWords]

theorem testBit_foldl_clearBit (l : List Nat) (hl : ∀ k ∈ l, k < m.numBits) :
    (l.foldl clearBit m).numBits = m.numBits ∧
    (l.foldl clearBit m).testBit j = (!decide (j ∈ l) && m.testBit j) := by
  induction l generalizing m with
  | nil => simp
  | cons k l ih =>
    have hk := hl k (List.mem_cons_self ..)
    obtain ⟨h₁, h₂⟩ := ih (m := m.clearBit k) fun k' hk' => hl k' (List.mem_cons_of_mem _ hk')
    refine ⟨h₁, ?_⟩
    rw [List.foldl_cons, h₂, testBit_clearBit hk]
    by_cases hj : j = k <;> simp [hj]

theorem numBits_new (memory : Nat → Word) (n : Nat) : (new memory n).numBits = n :=
  (testBit_foldl_clearBit (j := 0) _ fun _ hk => List.mem_range.mp hk).1

theorem free_new (memory : Nat → Word) (n : Nat) : (new memory n).free = List.range n := by
  have h : ∀ j < n, (new memory n).testBit j = false := by
    intro j hj
    rw [new, (testBit_foldl_clearBit _ fun _ hk => List.mem_range.mp hk).2]
    simp [hj]
  rw [free, numBits_new, List.filter_eq_self]
  intro j hj
  simp [h j (List.mem_range.mp hj)]

end BitMap
end Nachos
