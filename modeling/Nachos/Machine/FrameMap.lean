import Nachos.Machine.Paging
import Nachos.Lib.History

/-! The page table and the map of free frames. `LRU` looks for an entry whose `use` bit is clear,
and `Translate` sets the bit only when the access is made again. When a second page fault comes
in between, the same entry is filled once more, and its first frame is lost. -/

namespace Nachos
open Lib

namespace Memory
variable {m m' : Memory} {tid now : Int} {i j : Fin 32} {a : Access}

def OncePerPage (t : Fin 32 → TranslationEntry) : Prop :=
  ∀ i j, (t i).valid = true → (t j).valid = true → (t i).tid = (t j).tid →
    (t i).virtualPage = (t j).virtualPage → i = j

/-- The valid entries have frames of their own and are for different pages, and the map has the
frames of the valid entries. -/
structure Agrees (m : Memory) : Prop where
  frames : ∀ i, (m.pageTable i).valid = true →
    0 ≤ (m.pageTable i).physicalPage ∧ (m.pageTable i).physicalPage < 32
  distinct : ∀ i j, (m.pageTable i).valid = true → (m.pageTable j).valid = true →
    (m.pageTable i).physicalPage = (m.pageTable j).physicalPage → i = j
  pages : OncePerPage m.pageTable
  marked : ∀ f < 32, m.memBitMap.testBit f = true ↔
    ∃ i, (m.pageTable i).valid = true ∧ (m.pageTable i).physicalPage = f

theorem OncePerPage.give (h : OncePerPage m.pageTable) (hf : m.Faults tid a)
    {e : TranslationEntry} (ht : e.tid = tid) (hp : e.virtualPage = a.vpn) :
    OncePerPage (Function.update m.pageTable i e) := by
  have hmiss : ∀ j, (m.pageTable j).valid = true → (m.pageTable j).tid = e.tid →
      (m.pageTable j).virtualPage ≠ e.virtualPage := fun j hv hj hp' => by
    have := hf j
    rw [Bool.eq_false_iff] at this
    exact this (maps_iff.mpr ⟨hj.trans ht, hv, hp'.trans hp⟩)
  intro j k
  by_cases hj : j = i <;> by_cases hk : k = i
  · exact fun _ _ _ _ => hj.trans hk.symm
  · simp only [hj, Function.update_self, Function.update_of_ne hk]
    exact fun _ hv ht' hp' => absurd hp'.symm (hmiss k hv ht'.symm)
  · simp only [hk, Function.update_self, Function.update_of_ne hj]
    exact fun hv _ ht' hp' => absurd hp' (hmiss j hv ht')
  · simp only [Function.update_of_ne hj, Function.update_of_ne hk]
    exact h j k

/-- The first `k` entries are filled in order with the first `k` frames, and all of them but the
last one were used. -/
structure Filled (m : Memory) (k : Nat) : Prop where
  le : k ≤ 32
  valid : ∀ i, (m.pageTable i).valid = true ↔ i.val < k
  frame : ∀ i, (m.pageTable i).valid = true → (m.pageTable i).physicalPage = i.val
  unused : ∀ i, (m.pageTable i).valid = false → (m.pageTable i).use = false
  used : ∀ i, i.val + 1 < k → (m.pageTable i).use = true
  free : m.memBitMap.free = List.range' k (32 - k)
  pages : OncePerPage m.pageTable

namespace Filled
variable {k : Nat}

theorem testBit (h : m.Filled k) {f : Nat} (hf : f < 32) :
    m.memBitMap.testBit f = true ↔ f < k := by
  have hm : f ∈ m.memBitMap.free ↔ k ≤ f := by
    rw [h.free, List.mem_range'_1]
    omega
  rw [BitMap.mem_free, m.numBits, and_iff_right hf] at hm
  rw [← Bool.not_eq_false, hm, not_le]

theorem find (h : m.Filled k) (hk : k < 32) : m.memBitMap.find = ((k : Int), m.memBitMap.markBit k) := by
  have hf : m.memBitMap.free = k :: List.range' (k + 1) (32 - (k + 1)) := by
    rw [h.free, show 32 - k = 32 - (k + 1) + 1 by omega, List.range'_succ]
  exact BitMap.find_of_free_cons hf

theorem find_full (h : m.Filled 32) : m.memBitMap.find = (-1, m.memBitMap) :=
  BitMap.find_of_free_nil h.free

theorem agrees (h : m.Filled k) : m.Agrees where
  frames i hi := by
    have := h.frame i hi
    omega
  distinct i j hi hj he := by
    rw [h.frame i hi, h.frame j hj] at he
    exact Fin.ext (Int.ofNat_inj.mp he)
  pages := h.pages
  marked f hf := by
    rw [h.testBit hf]
    constructor
    · intro hk
      have hv := (h.valid ⟨f, hf⟩).mpr hk
      exact ⟨⟨f, hf⟩, hv, h.frame _ hv⟩
    · rintro ⟨i, hi, he⟩
      rw [h.frame i hi] at he
      have := (h.valid i).mp hi
      omega

theorem last_of_unused (h : m.Filled k) (hv : (m.pageTable i).valid = true)
    (hu : (m.pageTable i).use = false) : i.val + 1 = k := by
  have hi := (h.valid i).mp hv
  by_contra hne
  have := h.used i (by omega)
  rw [hu] at this
  cases this

theorem install (h : m.Filled k) (hk : k < 32)
    (hu : ∀ i, (m.pageTable i).valid = true → (m.pageTable i).use = true) (hf : m.Faults tid a) :
    (m.serviced tid a).Filled (k + 1) := by
  have hnv : (m.pageTable ⟨k, hk⟩).valid = false :=
    Bool.eq_false_iff.mpr fun hv => Nat.lt_irrefl k ((h.valid _).mp hv)
  have hfirst : m.firstUnused = some ⟨k, hk⟩ :=
    firstUnused_eq_some (h.unused _ hnv) fun j hj => hu j ((h.valid j).mpr hj)
  have hgiven : m.given = ⟨k, hk⟩ := by simp [given, hfirst]
  have hframe : m.givenFrame = k := by simp [givenFrame, hfirst, h.find hk]
  have hbits : (m.serviced tid a).memBitMap = m.memBitMap.markBit k := by
    simp [serviced_memBitMap, hfirst, h.find hk]
  have hold : ∀ j : Fin 32, j ≠ ⟨k, hk⟩ → (m.serviced tid a).pageTable j = m.pageTable j :=
    fun j hj => by rw [serviced_pageTable, hgiven, Function.update_of_ne hj]
  have hnew : (m.serviced tid a).pageTable ⟨k, hk⟩ = { m.pageTable ⟨k, hk⟩ with
      physicalPage := k, tid := tid, virtualPage := a.vpn, valid := true } := by
    rw [serviced_pageTable, hgiven, Function.update_self, hframe]
  refine ⟨hk, fun j => ?_, fun j => ?_, fun j => ?_, fun j hj => ?_, ?_, ?_⟩
  · by_cases hj : j = ⟨k, hk⟩
    · simp [hj, hnew]
    · rw [hold j hj, h.valid]
      have : j.val ≠ k := fun e => hj (Fin.ext e)
      omega
  · by_cases hj : j = ⟨k, hk⟩
    · simp [hj, hnew]
    · rw [hold j hj]
      exact h.frame j
  · by_cases hj : j = ⟨k, hk⟩
    · simp [hj, hnew]
    · rw [hold j hj]
      exact h.unused j
  · rw [hold j (Fin.ne_of_val_ne (by simp only; omega))]
    exact hu j ((h.valid j).mpr (by omega))
  · rw [hbits]
    refine BitMap.free_markBit ?_
    rw [h.free, show 32 - k = 32 - (k + 1) + 1 by omega, List.range'_succ]
  · rw [serviced_pageTable]
    exact h.pages.give hf rfl rfl

theorem replace (h : m.Filled 32)
    (hu : ∀ i, (m.pageTable i).valid = true → (m.pageTable i).use = true) (hf : m.Faults tid a) :
    (m.serviced tid a).Filled 32 := by
  have hv : ∀ i, (m.pageTable i).valid = true := fun i => (h.valid i).mpr i.isLt
  have hfull : m.firstUnused = none := firstUnused_eq_none.mpr fun i => hu i (hv i)
  have hgiven : m.given = m.oldest := by simp [given, hfull]
  have hframe : m.givenFrame = (m.pageTable m.oldest).physicalPage := by simp [givenFrame, hfull]
  have hsame : ∀ j, ((m.serviced tid a).pageTable j).valid = true ∧
      ((m.serviced tid a).pageTable j).physicalPage = (m.pageTable j).physicalPage ∧
      ((m.serviced tid a).pageTable j).use = (m.pageTable j).use := fun j => by
    rw [serviced_pageTable, hgiven, hframe]
    by_cases hj : j = m.oldest
    · simp [hj]
    · simp [Function.update_of_ne hj, hv j]
  refine ⟨le_rfl, fun j => ?_, fun j hj => ?_, fun j hj => ?_, fun j hj => ?_, ?_, ?_⟩
  · exact iff_of_true (hsame j).1 j.isLt
  · rw [(hsame j).2.1]
    exact h.frame j (hv j)
  · rw [(hsame j).1] at hj
    cases hj
  · rw [(hsame j).2.2]
    exact hu j (hv j)
  · rw [serviced_memBitMap, if_pos hfull]
    exact h.free
  · rw [serviced_pageTable]
    exact h.pages.give hf rfl rfl

theorem serviced (h : m.Filled k)
    (hu : ∀ i, (m.pageTable i).valid = true → (m.pageTable i).use = true) (hf : m.Faults tid a) :
    ∃ k, (m.serviced tid a).Filled k := by
  obtain hk | rfl := Nat.lt_or_eq_of_le h.le
  · exact ⟨_, h.install hk hu hf⟩
  · exact ⟨_, h.replace hu hf⟩

theorem performed (h : m.Filled k) (hv : (m.pageTable i).valid = true) :
    (m.performed tid now a i).Filled k := by
  have hsame := @performed_entry m tid now i a
  refine ⟨h.le, fun j => ?_, fun j => ?_, fun j hj => ?_, fun j hj => ?_, h.free,
    fun j l => ?_⟩
  · rw [(hsame j).1]
    exact h.valid j
  · rw [(hsame j).1, (hsame j).2.1]
    exact h.frame j
  · rw [(hsame j).1] at hj
    have hji : j ≠ i := fun e => by
      rw [e, hv] at hj
      cases hj
    rw [performed_pageTable, Function.update_of_ne hji]
    exact h.unused j hj
  · rw [performed_pageTable]
    by_cases hji : j = i
    · simp [hji]
    · rw [Function.update_of_ne hji]
      exact h.used j hj
  · rw [(hsame j).1, (hsame j).2.2.1, (hsame j).2.2.2.1, (hsame l).1, (hsame l).2.2.1,
      (hsame l).2.2.2.1]
    exact h.pages j l

/-- A page fault while a filled entry is still to be used: its frame stays marked, and no entry
names it any more. -/
theorem not_agrees (h : m.Filled k) (hv : (m.pageTable i).valid = true)
    (hu : (m.pageTable i).use = false) : ¬ (m.serviced tid a).Agrees := by
  have hik := h.last_of_unused hv hu
  have hfirst : m.firstUnused = some i := firstUnused_eq_some hu fun j hj => h.used j (by omega)
  -- the entry's new frame is another one, or none at all
  have hframe : m.givenFrame ≠ i := by
    simp only [givenFrame, hfirst, reduceCtorEq, if_false]
    obtain hk | rfl := Nat.lt_or_eq_of_le h.le
    · rw [h.find hk]
      simp only
      omega
    · rw [h.find_full]
      simp only
      omega
  have hmark : (m.serviced tid a).memBitMap.testBit i = true := by
    have hi : m.memBitMap.testBit i = true := (h.testBit i.isLt).mpr (by omega)
    rw [serviced_memBitMap, hfirst, if_neg (by simp)]
    obtain hk | rfl := Nat.lt_or_eq_of_le h.le
    · rw [h.find hk, BitMap.testBit_markBit (by rw [m.numBits]; exact hk), hi, Bool.or_true]
    · rw [h.find_full]
      exact hi
  intro hg
  obtain ⟨j, hjv, hjf⟩ := (hg.marked i i.isLt).mp hmark
  rw [serviced_pageTable, show m.given = i by simp [given, hfirst]] at hjv hjf
  by_cases hj : j = i
  · subst hj
    rw [Function.update_self] at hjf
    exact hframe hjf
  · rw [Function.update_of_ne hj] at hjv hjf
    rw [h.frame j hjv] at hjf
    exact hj (Fin.ext (Int.ofNat_inj.mp hjf))

end Filled
end Memory

namespace Users

/-- A page fault comes only when every filled entry was used. -/
def Retried (u : Users) : Int × Int → Prop
  | (tid, _) => ∀ a rest, u.todo tid = a :: rest → u.memory.Faults tid a →
      ∀ i, (u.memory.pageTable i).valid = true → (u.memory.pageTable i).use = true

variable {u u' : Users} {e : Int × Int}

theorem step_filled (h : ∃ k, u.memory.Filled k) (hs : u.step e = some u') (hr : u.Retried e) :
    ∃ k, u'.memory.Filled k := by
  obtain ⟨tid, now⟩ := e
  obtain ⟨k, hk⟩ := h
  obtain ⟨-, rfl⟩ | ⟨a, rest, ht, ⟨-, hf, rfl⟩ | ⟨i, hi, rfl⟩⟩ := step_cases hs
  · exact ⟨k, hk⟩
  · exact hk.serviced (hr a rest ht hf) hf
  · exact ⟨k, hk.performed (Memory.maps_iff.mp hi.maps).2.1⟩

theorem step_not_agrees (h : ∃ k, u.memory.Filled k) (hs : u.step e = some u')
    (hr : ¬ u.Retried e) : ¬ u'.memory.Agrees := by
  obtain ⟨tid, now⟩ := e
  obtain ⟨k, hk⟩ := h
  simp only [Retried, not_forall, Bool.not_eq_true] at hr
  obtain ⟨a, rest, ht, hf, i, hv, hu⟩ := hr
  obtain ⟨ht', -⟩ | ⟨a', rest', ht', ⟨-, -, rfl⟩ | ⟨j, hj, -⟩⟩ := step_cases hs
  · rw [ht] at ht'
    cases ht'
  · rw [ht] at ht'
    cases ht'
    exact hk.not_agrees hv hu
  · rw [ht] at ht'
    cases ht'
    exact absurd hf hj.not_faults

end Users

theorem Memory.filled_initial (pageLasttime : Int → Int) (mainMemory : Int → Byte)
    (words : Nat → Word) (disk : BackingFile) :
    (initial pageLasttime mainMemory words disk).Filled 0 where
  le := Nat.zero_le _
  valid i := by simp [initial, TranslationEntry.initial]
  frame i hi := by cases hi
  unused i _ := rfl
  used i hi := by omega
  free := BitMap.free_new words 32
  pages i j hi := by cases hi

/-- Whatever the threads access and in whatever order they run: page table and frame map agree
all along if and only if every page fault finds all filled entries in use, that is, if no fault
comes between another fault and the access that is made again after it. -/
theorem frameMap_agrees_iff (pageLasttime : Int → Int) (mainMemory : Int → Byte)
    (words : Nat → Word) (disk : BackingFile) (todo : Int → List Access)
    (schedule : List (Int × Int)) :
    History.Always Users.step (fun u => u.memory.Agrees)
      (.start (.initial pageLasttime mainMemory words disk) todo) schedule ↔
    History.Meets Users.step Users.Retried
      (.start (.initial pageLasttime mainMemory words disk) todo) schedule := by
  have hagrees : ∀ u : Users, (∃ k, u.memory.Filled k) → u.memory.Agrees := by
    rintro u ⟨k, h⟩
    exact h.agrees
  exact History.always_iff_meets hagrees (fun _ _ _ h hs hr => Users.step_filled h hs hr)
    (fun _ _ _ h hs hr => Users.step_not_agrees h hs hr)
    ⟨0, Memory.filled_initial pageLasttime mainMemory words disk⟩

/-- Two threads have a page fault before either of them makes its access again: the frame of the
first one is lost. -/
theorem not_frameMap_agrees_twoFaults :
    ¬ History.Always Users.step (fun u => u.memory.Agrees)
      (.start (.initial (fun _ => 0) (fun _ => 0) (fun _ => 0) ⟨0, fun _ => 0⟩)
        fun _ => [.read 0 .word]) [(1, 0), (2, 0)] := by
  rintro ⟨-, h⟩
  obtain ⟨-, h⟩ := h _ rfl
  have hg := h _ rfl
  have hmark := (hg.marked 0 (by decide)).mp (by decide +kernel)
  revert hmark
  decide +kernel

end Nachos
