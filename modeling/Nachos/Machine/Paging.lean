import Nachos.Machine.Memory

/-! What translation, an access and `LRU` can do to the memory. -/

namespace Nachos
open Lib

section overwrite
variable {f : Int → Byte} {p q : Int} {bs : List Byte}

theorem overwrite_add (o : Nat) : overwrite f p bs (p + o) = bs[o]?.getD (f (p + o)) := by
  rw [overwrite]
  by_cases ho : o < bs.length
  · have hi : (p + o - p).toNat = o := by omega
    rw [if_pos (by omega), hi, List.getD_eq_getElem?_getD, List.getElem?_eq_getElem ho]
    rfl
  · rw [if_neg (by omega), List.getElem?_eq_none (by omega)]
    rfl

theorem overwrite_of_not {n : Nat} (hn : bs.length ≤ n) (h : ¬ (p ≤ q ∧ q < p + n)) :
    overwrite f p bs q = f q := if_neg (by omega)

end overwrite

namespace BackingFile
variable {f : BackingFile} {w q o : Nat} {bs : List Byte}

/-- The byte that a page fault finds at an offset. -/
def stored (f : BackingFile) (p : Nat) : Option Byte :=
  if p < f.length ∧ p < 2147483648 then some (f.byte p) else none

theorem int32_page (h : w < 16777216) : int32 ((w : Int) * 128) = (w * 128 : Nat) := by
  rw [int32_of_range (by omega) (by omega)]
  push_cast
  rfl

theorem int32_page_neg (h₁ : 16777216 ≤ w) (h₂ : w < 33554432) : int32 ((w : Int) * 128) < 0 := by
  rw [int32, BitVec.toInt_ofInt, Int.bmod_def]
  omega

theorem length_readAt_le (n : Nat) (x : Int) : (f.readAt n x).length ≤ n := by
  rw [readAt]
  split
  · simp
  · simp

theorem getElem?_readAt (hw : w < 33554432) (ho : o < 128) :
    (f.readAt 128 (int32 ((w : Int) * 128)))[o]? = f.stored (w * 128 + o) := by
  by_cases h : w < 16777216
  · rw [int32_page h, readAt, if_pos (by omega), stored]
    by_cases hl : w * 128 + o < f.length
    · rw [if_pos (by omega), List.getElem?_map, List.getElem?_range (by omega)]
      rfl
    · rw [if_neg (by omega), List.getElem?_eq_none]
      simp only [List.length_map, List.length_range]
      omega
  · have hneg := int32_page_neg (by omega) hw
    rw [readAt, if_neg (by omega), stored, if_neg (by omega)]
    rfl

theorem stored_writeAt_self (hw : w < 16777216) (hbs : bs.length = 128) (ho : o < 128) :
    (f.writeAt bs (int32 ((w : Int) * 128))).stored (w * 128 + o) = bs[o]? := by
  have hbyte : overwrite f.byte ((w * 128 : Nat) : Int) bs ((w * 128 + o : Nat) : Int) =
      bs[o]?.getD (f.byte ((w * 128 + o : Nat) : Int)) := by
    have := @overwrite_add f.byte ((w * 128 : Nat) : Int) bs o
    rwa [← Nat.cast_add] at this
  rw [int32_page hw, writeAt, if_pos (by omega), stored]
  simp only [Int.toNat_natCast, hbs]
  rw [if_pos (by omega), hbyte, List.getElem?_eq_getElem (by omega)]
  rfl

theorem stored_writeAt_of_ne (hw : w < 33554432) (hbs : bs.length = 128) (hq : q / 128 ≠ w) :
    (f.writeAt bs (int32 ((w : Int) * 128))).stored q = f.stored q ∨
      f.stored q = none ∧ f.length ≤ q ∧
        (f.writeAt bs (int32 ((w : Int) * 128))).stored q = some (f.byte q) := by
  by_cases h : w < 16777216
  · have hout : ¬ (((w * 128 : Nat) : Int) ≤ q ∧ (q : Int) < (w * 128 : Nat) + (128 : Nat)) := by
      omega
    rw [int32_page h, writeAt, if_pos (by omega), stored, stored]
    simp only [Int.toNat_natCast, hbs]
    rw [overwrite_of_not hbs.le hout]
    by_cases hl : q < f.length
    · have hiff : (q < max f.length (w * 128 + 128) ∧ q < 2147483648) ↔
          (q < f.length ∧ q < 2147483648) := by omega
      exact .inl (if_congr hiff rfl rfl)
    · by_cases hm : q < max f.length (w * 128 + 128) ∧ q < 2147483648
      · exact .inr ⟨if_neg (by omega), by omega, if_pos hm⟩
      · rw [if_neg hm, if_neg (by omega)]
        exact .inl rfl
  · have hneg := int32_page_neg (by omega) hw
    rw [writeAt, if_neg (by omega)]
    exact .inl rfl

theorem writeAt_stale {x : Int} {p : Nat} (hp : (f.writeAt bs x).length ≤ p) :
    f.length ≤ p ∧ (f.writeAt bs x).byte p = f.byte p := by
  rw [writeAt] at hp ⊢
  split at hp
  · next hx =>
    simp only [if_pos hx] at hp ⊢
    exact ⟨by omega, overwrite_of_not le_rfl (by omega)⟩
  · next hx =>
    rw [if_neg hx]
    exact ⟨hp, rfl⟩

end BackingFile

namespace Memory
variable {m m' : Memory} {tid now : Int} {vpn : Nat} {i j : Fin 32} {addr : Word} {size : MemSize}
  {writing : Bool}

theorem maps_iff : m.maps tid vpn i = true ↔
    (m.pageTable i).tid = tid ∧ (m.pageTable i).valid = true ∧ (m.pageTable i).virtualPage = vpn := by
  simp [maps, and_assoc]

/-! ## Translation -/

def touch (m : Memory) (now : Int) (found : List (Fin 32)) : Memory :=
  { m with
    pagehit := m.pagehit + found.length
    pageLasttime := fun f =>
      if f ∈ found.map fun i => (m.pageTable i).physicalPage then now else m.pageLasttime f }

theorem touch_nil : m.touch now [] = m := by simp [touch]

theorem foldl_lookAt (l : List (Fin 32)) (entry : Option (Fin 32)) :
    l.foldl (lookAt tid now vpn) (entry, m) =
      ((l.filter (m.maps tid vpn)).getLast?.or entry, m.touch now (l.filter (m.maps tid vpn))) := by
  induction l generalizing m entry with
  | nil => simp [touch_nil]
  | cons i l ih =>
    rw [List.foldl_cons, lookAt]
    by_cases hi : m.maps tid vpn i = true
    · rw [if_pos hi, List.filter_cons_of_pos hi, ih]
      have hm : maps { m with
          pagehit := m.pagehit + 1
          pageLasttime := Function.update m.pageLasttime (m.pageTable i).physicalPage now } tid vpn =
          m.maps tid vpn := rfl
      rw [hm, List.getLast?_cons]
      refine Prod.ext ?_ ?_
      · simp
      · simp only [touch, List.length_cons, List.map_cons, List.mem_cons, Function.update_apply]
        congr 1
        · funext f
          by_cases hf : f = (m.pageTable i).physicalPage <;> simp [hf]
        · omega
    · rw [if_neg hi, List.filter_cons_of_neg hi, ih]

def found (m : Memory) (tid : Int) (vpn : Nat) : List (Fin 32) :=
  (List.finRange 32).filter (m.maps tid vpn)

theorem mem_found : i ∈ m.found tid vpn ↔ m.maps tid vpn i = true := by simp [found]

theorem found_eq_nil : m.found tid vpn = [] ↔ ∀ i, m.maps tid vpn i = false := by
  simp [found, List.filter_eq_nil_iff]

theorem lookup_eq : m.lookup tid now vpn =
    ((m.found tid vpn).getLast?, m.touch now (m.found tid vpn)) := by
  rw [lookup, foldl_lookAt, Option.or_none]
  rfl

def used (m : Memory) (tid now : Int) (vpn : Nat) (i : Fin 32) (writing : Bool) : Memory :=
  (m.touch now (m.found tid vpn)).setEntry i
    { m.pageTable i with use := true, dirty := (m.pageTable i).dirty || writing }

structure Hits (m : Memory) (tid : Int) (addr : Word) (size : MemSize) (writing : Bool)
    (i : Fin 32) : Prop where
  aligned : misaligned addr size = false
  last : (m.found tid (addr.toNat / 128)).getLast? = some i
  writable : ((m.pageTable i).readOnly && writing) = false
  nonneg : 0 ≤ (m.pageTable i).physicalPage
  lt : (m.pageTable i).physicalPage < 32

def physical (m : Memory) (i : Fin 32) (addr : Word) : Int :=
  (m.pageTable i).physicalPage * 128 + (addr.toNat % 128 : Nat)

theorem Hits.maps (h : m.Hits tid addr size writing i) :
    m.maps tid (addr.toNat / 128) i = true :=
  mem_found.mp (List.mem_of_getLast? h.last)

theorem Hits.translate (h : m.Hits tid addr size writing i) :
    m.translate tid now addr size writing =
      (.ok (m.physical i addr), m.used tid now (addr.toNat / 128) i writing) := by
  rw [Memory.translate, if_neg (by simp [h.aligned]), lookup_eq, h.last]
  simp only
  rw [through, if_neg (by simpa [touch] using h.writable), if_pos ⟨h.nonneg, h.lt⟩]
  rfl

theorem translate_ok {pa : Int} (h : m.translate tid now addr size writing = (.ok pa, m')) :
    ∃ i, m.Hits tid addr size writing i := by
  rw [Memory.translate] at h
  split at h
  · cases h
  · next ha =>
    rw [lookup_eq] at h
    split at h
    · cases h
    · next i m₁ heq =>
      obtain ⟨hl, rfl⟩ := Prod.mk.inj heq
      rw [through] at h
      split at h
      · cases h
      · next hw =>
        split at h
        · next hf => exact ⟨i, by simpa using ha, hl, by simpa [touch] using hw, hf.1, hf.2⟩
        · cases h

theorem translate_pageFault
    (h : m.translate tid now addr size writing = (.error .pageFault, m')) :
    misaligned addr size = false ∧ (∀ i, m.maps tid (addr.toNat / 128) i = false) ∧
      m' = { m with pagemiss := m.pagemiss + 1 } := by
  rw [Memory.translate] at h
  split at h
  · cases h
  · next ha =>
    rw [lookup_eq] at h
    split at h
    · next m₁ heq =>
      obtain ⟨hl, rfl⟩ := Prod.mk.inj heq
      cases h
      have hn := List.getLast?_eq_none_iff.mp hl
      refine ⟨by simpa using ha, found_eq_nil.mp hn, ?_⟩
      rw [hn, touch_nil]
    · rw [through] at h
      split at h
      · cases h
      · split at h <;> cases h

theorem translate_miss (ha : misaligned addr size = false)
    (h : ∀ i, m.maps tid (addr.toNat / 128) i = false) :
    m.translate tid now addr size writing =
      (.error .pageFault, { m with pagemiss := m.pagemiss + 1 }) := by
  rw [Memory.translate, if_neg (by simp [ha]), lookup_eq, found_eq_nil.mpr h, touch_nil]
  rfl

/-! ## Accesses -/

end Memory

namespace Access

def writing : Access → Bool
  | .read .. => false
  | .write .. => true

def store (f : Int → Byte) (physicalAddress : Int) : Access → Int → Byte
  | .read .. => f
  | .write _ size value => overwrite f physicalAddress ((leBytes value).take size.bytes)

def result (f : Int → Byte) (physicalAddress : Int) : Access → Option Word
  | .read _ size => some (Memory.value f physicalAddress size)
  | .write .. => none

def complete (a : Access) : Except ExceptionType Int × Memory →
    Except ExceptionType (Option Word) × Memory
  | (.error e, m) => (.error e, m)
  | (.ok pa, m) =>
    (.ok (a.result m.mainMemory pa), { m with mainMemory := a.store m.mainMemory pa })

end Access

namespace Memory
variable {m m' : Memory} {tid now : Int} {i j : Fin 32} {addr : Word} {a : Access} {v : Option Word}

/-- The access goes through entry `i`. -/
abbrev HitBy (m : Memory) (tid : Int) (a : Access) (i : Fin 32) : Prop :=
  m.Hits tid a.addr a.size a.writing i

/-- The access finds no entry for its page. -/
def Faults (m : Memory) (tid : Int) (a : Access) : Prop := ∀ i, m.maps tid a.vpn i = false

theorem HitBy.not_faults (h : m.HitBy tid a i) : ¬ m.Faults tid a := fun hf =>
  Bool.false_ne_true ((hf i).symm.trans h.maps)

def performed (m : Memory) (tid now : Int) (a : Access) (i : Fin 32) : Memory :=
  { m.used tid now a.vpn i a.writing with
    mainMemory := a.store m.mainMemory (m.physical i a.addr) }

theorem access_eq (m : Memory) (tid now : Int) (a : Access) :
    m.access tid now a = a.complete (m.translate tid now a.addr a.size a.writing) := by
  cases a with
  | read addr size =>
    rw [access, readMem]
    change _ = Access.complete _ (m.translate tid now addr size false)
    generalize m.translate tid now addr size false = r
    obtain ⟨e | pa, m₁⟩ := r <;> rfl
  | write addr size value =>
    rw [access, writeMem]
    change _ = Access.complete _ (m.translate tid now addr size true)
    generalize m.translate tid now addr size true = r
    obtain ⟨e | pa, m₁⟩ := r <;> rfl

theorem HitBy.attempt (h : m.HitBy tid a i) : m.attempt tid now a =
    some (.done (a.result m.mainMemory (m.physical i a.addr)), m.performed tid now a i) := by
  rw [Memory.attempt, access_eq, Hits.translate h]
  rfl

theorem attempt_done (h : m.attempt tid now a = some (.done v, m')) :
    ∃ i, m.HitBy tid a i ∧ v = a.result m.mainMemory (m.physical i a.addr) ∧
      m' = m.performed tid now a i := by
  have hd := h
  rw [attempt, access_eq] at h
  rcases ht : m.translate tid now a.addr a.size a.writing with ⟨e | pa, m₁⟩
  · rw [ht] at h
    cases e <;> cases h
  · obtain ⟨i, hi⟩ := translate_ok ht
    rw [HitBy.attempt hi] at hd
    cases hd
    exact ⟨i, hi, rfl, rfl⟩

def serviced (m : Memory) (tid : Int) (a : Access) : Memory :=
  { m with pagemiss := m.pagemiss + 1 }.lru tid a.addr

theorem attempt_faulted (h : m.attempt tid now a = some (.faulted, m')) :
    misaligned a.addr a.size = false ∧ m.Faults tid a ∧ m' = m.serviced tid a := by
  rw [attempt, access_eq] at h
  rcases ht : m.translate tid now a.addr a.size a.writing with ⟨e | pa, m₁⟩
  · rw [ht] at h
    cases e with
    | pageFault =>
      cases h
      obtain ⟨ha, hf, rfl⟩ := translate_pageFault ht
      exact ⟨ha, hf, rfl⟩
    | _ => cases h
  · rw [ht] at h
    cases h

theorem Faults.attempt (h : m.Faults tid a) (ha : misaligned a.addr a.size = false) :
    m.attempt tid now a = some (.faulted, m.serviced tid a) := by
  rw [Memory.attempt, access_eq, translate_miss ha h]
  rfl

/-! ## Replacement -/

theorem firstUnused_eq_none : m.firstUnused = none ↔ ∀ i, (m.pageTable i).use = true := by
  simp [firstUnused]

theorem firstUnused_eq_some (hi : (m.pageTable i).use = false)
    (hlt : ∀ j < i, (m.pageTable j).use = true) : m.firstUnused = some i := by
  rw [firstUnused, List.find?_eq_some_iff_getElem]
  refine ⟨by simp [hi], i, by simp, by simp, fun j hj => ?_⟩
  have := hlt ⟨j, by omega⟩ hj
  simpa using this

theorem not_use_of_firstUnused (h : m.firstUnused = some i) : (m.pageTable i).use = false := by
  simpa using List.find?_some h

@[simp] theorem performed_pageTable : (m.performed tid now a i).pageTable =
    Function.update m.pageTable i
      { m.pageTable i with use := true, dirty := (m.pageTable i).dirty || a.writing } := rfl

theorem performed_entry (j : Fin 32) :
    ((m.performed tid now a i).pageTable j).valid = (m.pageTable j).valid ∧
    ((m.performed tid now a i).pageTable j).physicalPage = (m.pageTable j).physicalPage ∧
    ((m.performed tid now a i).pageTable j).tid = (m.pageTable j).tid ∧
    ((m.performed tid now a i).pageTable j).virtualPage = (m.pageTable j).virtualPage ∧
    ((m.performed tid now a i).pageTable j).readOnly = (m.pageTable j).readOnly := by
  rw [performed_pageTable]
  by_cases hj : j = i
  · simp [hj]
  · simp [Function.update_of_ne hj]

@[simp] theorem maps_performed (t : Int) (v : Nat) (j : Fin 32) :
    (m.performed tid now a i).maps t v j = m.maps t v j := by
  obtain ⟨hv, -, ht, hp, -⟩ := @performed_entry m tid now i a j
  rw [maps, maps, hv, ht, hp]

@[simp] theorem performed_memBitMap : (m.performed tid now a i).memBitMap = m.memBitMap := rfl

@[simp] theorem performed_disk : (m.performed tid now a i).disk = m.disk := rfl

@[simp] theorem performed_mainMemory :
    (m.performed tid now a i).mainMemory = a.store m.mainMemory (m.physical i a.addr) := rfl

theorem serviced_of_unused (h : m.firstUnused = some i) :
    m.serviced tid a =
      ({ m with pagemiss := m.pagemiss + 1 }.install i tid a.vpn).loadPage i a.vpn := by
  have h' : { m with pagemiss := m.pagemiss + 1 }.firstUnused = some i := h
  rw [serviced, lru, assign, h']
  rfl

theorem serviced_of_full (h : m.firstUnused = none) :
    m.serviced tid a = ({ m with pagemiss := m.pagemiss + 1 }.replace m.oldest tid a.vpn).loadPage
      m.oldest a.vpn := by
  have h' : { m with pagemiss := m.pagemiss + 1 }.firstUnused = none := h
  rw [serviced, lru, assign, h']
  rfl

/-- The entry that gets the page, in both cases. -/
def given (m : Memory) : Fin 32 := m.firstUnused.getD m.oldest

def givenFrame (m : Memory) : Int :=
  if m.firstUnused = none then (m.pageTable m.oldest).physicalPage else m.memBitMap.find.1

theorem serviced_pageTable : (m.serviced tid a).pageTable =
    Function.update m.pageTable m.given { m.pageTable m.given with
      physicalPage := m.givenFrame, tid := tid, virtualPage := a.vpn, valid := true } := by
  cases h : m.firstUnused with
  | none =>
    rw [serviced_of_full h]
    simp [given, givenFrame, h, loadPage, replace]
  | some i =>
    rw [serviced_of_unused h]
    simp [given, givenFrame, h, loadPage, install]

/-- The backing file when the page is read. -/
def writtenBack (m : Memory) : BackingFile :=
  if m.firstUnused = none then
    m.disk.writeAt (m.frame (m.pageTable m.oldest).physicalPage)
      (int32 ((m.pageTable m.oldest).virtualPage * 128))
  else m.disk

theorem serviced_disk : (m.serviced tid a).disk = m.writtenBack := by
  cases h : m.firstUnused with
  | none =>
    rw [serviced_of_full h, writtenBack, if_pos h]
    rfl
  | some i =>
    rw [serviced_of_unused h, writtenBack, if_neg (by simp [h])]
    rfl

theorem serviced_mainMemory : (m.serviced tid a).mainMemory =
    overwrite m.mainMemory (m.givenFrame * 128)
      (m.writtenBack.readAt 128 (int32 ((a.vpn : Int) * 128))) := by
  cases h : m.firstUnused with
  | none =>
    rw [serviced_of_full h, writtenBack, if_pos h, givenFrame, if_pos h]
    simp [loadPage, replace, setEntry, frame]
  | some i =>
    rw [serviced_of_unused h, writtenBack, if_neg (by simp [h]), givenFrame, if_neg (by simp [h])]
    simp [loadPage, install, setEntry]

theorem serviced_memBitMap : (m.serviced tid a).memBitMap =
    if m.firstUnused = none then m.memBitMap else m.memBitMap.find.2 := by
  cases h : m.firstUnused with
  | none =>
    rw [serviced_of_full h]
    rfl
  | some i =>
    rw [serviced_of_unused h]
    rfl

end Memory

namespace Users
variable {u u' : Users} {tid now : Int}

def finished (u : Users) (tid now : Int) (a : Access) (rest : List Access) (i : Fin 32) : Users where
  memory := u.memory.performed tid now a i
  log := Function.update u.log tid
    (u.log tid ++ [(a, a.result u.memory.mainMemory (u.memory.physical i a.addr))])
  todo := Function.update u.todo tid rest

theorem step_cases (h : u.step (tid, now) = some u') :
    (u.todo tid = [] ∧ u' = u) ∨
    ∃ a rest, u.todo tid = a :: rest ∧
      ((Memory.misaligned a.addr a.size = false ∧ u.memory.Faults tid a ∧
        u' = { u with memory := u.memory.serviced tid a }) ∨
      ∃ i, u.memory.HitBy tid a i ∧ u' = u.finished tid now a rest i) := by
  rw [step] at h
  split at h
  · next ht =>
    cases h
    exact .inl ⟨ht, rfl⟩
  · next a rest ht =>
    obtain ⟨⟨r, m⟩, hr, he⟩ := Option.map_eq_some_iff.mp h
    refine .inr ⟨a, rest, ht, ?_⟩
    cases r with
    | faulted =>
      obtain ⟨ha, hf, rfl⟩ := Memory.attempt_faulted hr
      exact .inl ⟨ha, hf, he.symm⟩
    | done v =>
      obtain ⟨i, hi, rfl, rfl⟩ := Memory.attempt_done hr
      exact .inr ⟨i, hi, he.symm⟩

end Users
end Nachos
