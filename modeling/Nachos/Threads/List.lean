import Nachos.Lib.Linked
import Mathlib.Algebra.Order.Ring.Int
import Mathlib.Data.List.Nodup

/-! The lists of `list.cc`: elements in memory that are linked by pointers. An operation on them
does what it says on the sequence of the items with their keys. -/

namespace Nachos
open Lib

/-! ## Elements and operations -/

structure ListElement (α : Type) where
  next : Option Nat
  key : Int
  item : α

/-- An object of class `List`, and the memory in which its elements are. -/
structure LinkedList (α : Type) where
  heap : Nat → Option (ListElement α)
  first : Option Nat
  last : Option Nat
  numInList : Int

namespace LinkedList
variable {α : Type}

def initial (heap : Nat → Option (ListElement α)) : LinkedList α := ⟨heap, none, none, 0⟩

def isEmpty (l : LinkedList α) : Bool := l.first == none

/-- `new ListElement(item, sortKey)`, where `element` is the address that `new` returns. -/
def newElement (l : LinkedList α) (element : Nat) (item : α) (sortKey : Int) : LinkedList α :=
  { l with heap := Function.update l.heap element (some ⟨none, sortKey, item⟩) }

/-- The assignment `ptr->next = next`. -/
def setNext (l : LinkedList α) (ptr : Nat) (next : Option Nat) : Option (LinkedList α) :=
  (l.heap ptr).map fun c =>
    { l with heap := Function.update l.heap ptr (some { c with next := next }) }

def putOnly (l : LinkedList α) (element : Nat) : LinkedList α :=
  { l with first := some element, last := some element, numInList := l.numInList + 1 }

def putFirst (l : LinkedList α) (element : Nat) : Option (LinkedList α) := do
  let l ← l.setNext element l.first
  return { l with first := some element, numInList := l.numInList + 1 }

def putLast (l : LinkedList α) (element : Nat) : Option (LinkedList α) := do
  let l ← l.setNext (← l.last) (some element)
  return { l with last := some element, numInList := l.numInList + 1 }

def append (l : LinkedList α) (element : Nat) (item : α) : Option (LinkedList α) :=
  let l := l.newElement element item 0
  if l.isEmpty then some (l.putOnly element)
  else l.putLast element

def prepend (l : LinkedList α) (element : Nat) (item : α) : Option (LinkedList α) :=
  let l := l.newElement element item 0
  if l.isEmpty then some (l.putOnly element)
  else l.putFirst element

/-- The loop of `SortedInsert`, and what follows it. -/
def sortedInsertLoop (l : LinkedList α) (element : Nat) (sortKey : Int) :
    Nat → Nat → Option (LinkedList α)
  | 0, _ => none
  | fuel + 1, ptr => do
    match (← l.heap ptr).next with
    | none => l.putLast element
    | some next =>
      if sortKey < (← l.heap next).key then
        let l ← l.setNext element (some next)
        let l ← l.setNext ptr (some element)
        return { l with numInList := l.numInList + 1 }
      else l.sortedInsertLoop element sortKey fuel next

def sortedInsert (fuel : Nat) (l : LinkedList α) (element : Nat) (item : α) (sortKey : Int) :
    Option (LinkedList α) :=
  let l := l.newElement element item sortKey
  if l.isEmpty then some (l.putOnly element)
  else do
    let first ← l.first
    if sortKey < (← l.heap first).key then l.putFirst element
    else l.sortedInsertLoop element sortKey fuel first

def sortedRemove (l : LinkedList α) : Option (Option (Int × α) × LinkedList α) :=
  match l.first with
  | none => some (none, l)
  | some element => do
    let c ← l.heap element
    let l := if l.first = l.last then { l with first := none, last := none }
      else { l with first := c.next }
    return (some (c.key, c.item),
      { l with heap := Function.update l.heap element none, numInList := l.numInList - 1 })

def remove (l : LinkedList α) : Option (Option α × LinkedList α) := do
  let (thing, l) ← l.sortedRemove
  return (thing.map Prod.snd, l)

section
variable [DecidableEq α]

/-- The loop of `Remove(item)`. An item that is not found fails the assertion after it. -/
def removeLoop (l : LinkedList α) (item : α) : Nat → Nat → Option Nat → Option (LinkedList α)
  | 0, _, _ => none
  | _ + 1, _, none => none
  | fuel + 1, prev, some ptr => do
    let c ← l.heap ptr
    if item = c.item then
      let l ← l.setNext prev c.next
      let l := if (← l.heap prev).next = none then { l with last := some prev } else l
      return { l with heap := Function.update l.heap ptr none, numInList := l.numInList - 1 }
    else l.removeLoop item fuel ptr c.next

def removeItem (fuel : Nat) (l : LinkedList α) (item : α) : Option (LinkedList α) := do
  let first ← l.first
  let c ← l.heap first
  if item = c.item then
    let (removed, l) ← l.remove
    if some item = removed then return l else none
  else l.removeLoop item fuel first c.next

end
end LinkedList

/-! ## Calls -/

inductive ListCall (α : Type) where
  | append (item : α)
  | prepend (item : α)
  | remove
  | sortedInsert (item : α) (sortKey : Int)
  | sortedRemove
  | removeItem (item : α)

/-- What a call returns: the item, and the key that `SortedRemove` stores. -/
structure ListReply (α : Type) where
  thing : Option α
  key : Option Int
  deriving DecidableEq

def ListReply.void {α : Type} : ListReply α := ⟨none, none⟩

section
variable {α : Type} [DecidableEq α]

/-- One call. `element` is what `new` returns, if the call uses it. -/
def LinkedList.perform (fuel : Nat) (l : LinkedList α) (element : Nat) :
    ListCall α → Option (ListReply α × LinkedList α)
  | .append item => (l.append element item).map fun l => (.void, l)
  | .prepend item => (l.prepend element item).map fun l => (.void, l)
  | .remove => l.remove.map fun r => (⟨r.1, none⟩, r.2)
  | .sortedInsert item sortKey =>
    (l.sortedInsert fuel element item sortKey).map fun l => (.void, l)
  | .sortedRemove =>
    l.sortedRemove.map fun r => (⟨r.1.map Prod.snd, r.1.map Prod.fst⟩, r.2)
  | .removeItem item => (l.removeItem fuel item).map fun l => (.void, l)

/-- Calls in a row. The address that `new` returns is not in use. -/
def LinkedList.performAll (fuel : Nat) (l : LinkedList α) :
    List (Nat × ListCall α) → Option (List (ListReply α) × LinkedList α)
  | [] => some ([], l)
  | (element, call) :: calls =>
    if (l.heap element).isSome then none
    else do
      let (reply, l) ← l.perform fuel element call
      let (replies, l) ← l.performAll fuel calls
      return (reply :: replies, l)

end

/-! ## Sequences -/

/-- `SortedInsert`, on a list of items with their keys: the item goes in front of the first larger
key. -/
def sortedInsert {α : Type} (item : α) (sortKey : Int) : List (Int × α) → List (Int × α)
  | [] => [(sortKey, item)]
  | (key, x) :: rest =>
    if sortKey < key then (sortKey, item) :: (key, x) :: rest
    else (key, x) :: sortedInsert item sortKey rest

section sortedInsert
variable {α : Type} {item : α} {sortKey : Int} {l : List (Int × α)} {x : Int × α}

theorem mem_sortedInsert : x ∈ sortedInsert item sortKey l ↔ x = (sortKey, item) ∨ x ∈ l := by
  induction l with
  | nil => simp [sortedInsert]
  | cons y l ih =>
    rw [sortedInsert]
    split
    · exact List.mem_cons
    · rw [List.mem_cons, ih, List.mem_cons]
      exact or_left_comm

theorem length_sortedInsert : (sortedInsert item sortKey l).length = l.length + 1 := by
  induction l with
  | nil => rfl
  | cons y l ih =>
    rw [sortedInsert]
    split
    · rfl
    · rw [List.length_cons, ih, List.length_cons]

theorem pairwise_sortedInsert (h : l.Pairwise (·.1 ≤ ·.1)) :
    (sortedInsert item sortKey l).Pairwise (·.1 ≤ ·.1) := by
  induction l with
  | nil => exact List.pairwise_singleton ..
  | cons y l ih =>
    obtain ⟨hy, hl⟩ := List.pairwise_cons.mp h
    rw [sortedInsert]
    split
    · next hlt =>
      refine List.pairwise_cons.mpr ⟨fun x hx => ?_, h⟩
      obtain rfl | hx := List.mem_cons.mp hx
      · exact hlt.le
      · exact hlt.le.trans (hy x hx)
    · next hle =>
      refine List.pairwise_cons.mpr ⟨fun x hx => ?_, ih hl⟩
      obtain rfl | hx := mem_sortedInsert.mp hx
      · exact not_lt.mp hle
      · exact hy x hx

/-- The item goes behind those with a key that is not larger, and before all others. -/
theorem exists_sortedInsert_eq (item : α) (sortKey : Int) (h : l.Pairwise (·.1 ≤ ·.1)) :
    ∃ before after, l = before ++ after ∧
      sortedInsert item sortKey l = before ++ (sortKey, item) :: after ∧
      (∀ x ∈ before, x.1 ≤ sortKey) ∧ ∀ x ∈ after, sortKey < x.1 := by
  induction l with
  | nil => exact ⟨[], [], rfl, rfl, by simp, by simp⟩
  | cons y l ih =>
    obtain ⟨hy, hl⟩ := List.pairwise_cons.mp h
    rw [sortedInsert]
    by_cases hlt : sortKey < y.1
    · refine ⟨[], y :: l, rfl, if_pos hlt, by simp, fun x hx => ?_⟩
      obtain rfl | hx := List.mem_cons.mp hx
      · exact hlt
      · exact hlt.trans_le (hy x hx)
    · obtain ⟨before, after, hl, hinsert, hbefore, hafter⟩ := ih hl
      refine ⟨y :: before, after, by rw [hl, List.cons_append], ?_, fun x hx => ?_, hafter⟩
      · rw [if_neg hlt, hinsert, List.cons_append]
      · obtain rfl | hx := List.mem_cons.mp hx
        · exact not_lt.mp hlt
        · exact hbefore x hx

theorem filter_sortedInsert {P : Int × α → Bool} (h : P (sortKey, item) = false) :
    (sortedInsert item sortKey l).filter P = l.filter P := by
  induction l with
  | nil => simp [sortedInsert, h]
  | cons y l ih =>
    rw [sortedInsert]
    split
    · rw [List.filter_cons_of_neg (by simp [h])]
    · rw [List.filter_cons, List.filter_cons, ih]

end sortedInsert

namespace ListCall
variable {α : Type} [DecidableEq α]

def onSequence (items : List (Int × α)) : ListCall α → ListReply α × List (Int × α)
  | .append item => (.void, items ++ [(0, item)])
  | .prepend item => (.void, (0, item) :: items)
  | .remove => (⟨items.head?.map Prod.snd, none⟩, items.tail)
  | .sortedInsert item sortKey => (.void, Nachos.sortedInsert item sortKey items)
  | .sortedRemove => (⟨items.head?.map Prod.snd, items.head?.map Prod.fst⟩, items.tail)
  | .removeItem item => (.void, items.eraseP fun x => decide (x.2 = item))

def runOnSequence (items : List (Int × α)) : List (ListCall α) → List (ListReply α) × List (Int × α)
  | [] => ([], items)
  | call :: calls =>
    let (reply, items) := call.onSequence items
    let (replies, items) := runOnSequence items calls
    (reply :: replies, items)

def Applies (items : List (Int × α)) : ListCall α → Prop
  | .removeItem item => ∃ x ∈ items, x.2 = item
  | _ => True

def Sorted : ListCall α → Prop
  | .sortedInsert _ _ | .sortedRemove | .removeItem _ => True
  | _ => False

theorem pairwise_onSequence {items : List (Int × α)} {call : ListCall α} (hcall : call.Sorted)
    (h : items.Pairwise (·.1 ≤ ·.1)) : (call.onSequence items).2.Pairwise (·.1 ≤ ·.1) := by
  cases call with
  | sortedInsert item sortKey => exact pairwise_sortedInsert h
  | sortedRemove => exact h.tail
  | removeItem item => exact h.sublist List.eraseP_sublist
  | append item => exact hcall.elim
  | prepend item => exact hcall.elim
  | remove => exact hcall.elim

theorem pairwise_runOnSequence {items : List (Int × α)} {calls : List (ListCall α)}
    (hcalls : ∀ call ∈ calls, call.Sorted) (h : items.Pairwise (·.1 ≤ ·.1)) :
    (runOnSequence items calls).2.Pairwise (·.1 ≤ ·.1) := by
  induction calls generalizing items with
  | nil => exact h
  | cons call calls ih =>
    obtain ⟨hcall, hcalls⟩ := List.forall_mem_cons.mp hcalls
    exact ih hcalls (pairwise_onSequence hcall h)

theorem length_onSequence_le (items : List (Int × α)) (call : ListCall α) :
    (call.onSequence items).2.length ≤ items.length + 1 := by
  cases call with
  | append item => simp [onSequence]
  | prepend item => simp [onSequence]
  | sortedInsert item sortKey => simp [onSequence, length_sortedInsert]
  | remove =>
    simp only [onSequence, List.length_tail]
    omega
  | sortedRemove =>
    simp only [onSequence, List.length_tail]
    omega
  | removeItem item => exact Nat.le_succ_of_le List.eraseP_sublist.length_le

end ListCall

/-! ## Representation -/

namespace LinkedList
variable {α : Type} {base : Nat → Option (ListElement α)} {l l' : LinkedList α}
variable {xs ys cells : List (Nat × ListElement α)} {c d : ListElement α} {a p e : Nat}
variable {item : α} {k : Int}

def entries (cells : List (Nat × ListElement α)) : List (Int × α) :=
  cells.map fun x => (x.2.key, x.2.item)

theorem length_entries (cells : List (Nat × ListElement α)) :
    (entries cells).length = cells.length := List.length_map _

/-- The list consists of the given cells, and the rest of the memory is as in `base`. -/
structure Holds (base : Nat → Option (ListElement α)) (l : LinkedList α)
    (cells : List (Nat × ListElement α)) : Prop where
  chain : Chain ListElement.next l.heap l.first cells none
  acyclic : (cells.map Prod.fst).Nodup
  last : l.last = cells.getLast?.map Prod.fst
  numInList : l.numInList = cells.length
  free : ∀ a ∈ cells.map Prod.fst, base a = none
  others : ∀ a, a ∉ cells.map Prod.fst → l.heap a = base a

theorem holds_initial (base : Nat → Option (ListElement α)) : Holds base (initial base) [] where
  chain := rfl
  acyclic := List.nodup_nil
  last := rfl
  numInList := rfl
  free := fun _ ha => absurd ha List.not_mem_nil
  others := fun _ _ => rfl

theorem setNext_eq {next : Option Nat} (h : l.heap a = some c) :
    l.setNext a next =
      some { l with heap := Function.update l.heap a (some { c with next := next }) } := by
  rw [setNext, h, Option.map_some]

theorem Holds.push (h : Holds base l cells) (he : l.heap e = none)
    (hheap : l'.heap = Function.update l.heap e (some ⟨l.first, k, item⟩))
    (hfirst : l'.first = some e) (hlast : l'.last = if cells = [] then some e else l.last)
    (hnum : l'.numInList = l.numInList + 1) :
    Holds base l' ((e, ⟨l.first, k, item⟩) :: cells) := by
  have hmem := h.chain.not_mem_of_free he
  constructor
  · rw [hheap]
    exact ⟨hfirst, Function.update_self .., h.chain.update hmem _⟩
  · exact List.nodup_cons.mpr ⟨hmem, h.acyclic⟩
  · rw [hlast, h.last]
    cases cells with
    | nil => rfl
    | cons x cells => rfl
  · rw [hnum, h.numInList, List.length_cons, Int.natCast_succ]
  · intro a ha
    rcases List.mem_cons.mp ha with rfl | ha
    · rw [← h.others _ hmem, he]
    · exact h.free a ha
  · intro a ha
    obtain ⟨hne, ha⟩ := not_or.mp (mt List.mem_cons.mpr ha)
    rw [hheap, Function.update_of_ne hne, h.others a ha]

theorem Holds.pop (h : Holds base l ((a, c) :: cells))
    (hheap : l'.heap = Function.update l.heap a none) (hfirst : l'.first = c.next)
    (hlast : l'.last = if cells = [] then none else l.last)
    (hnum : l'.numInList = l.numInList - 1) : Holds base l' cells := by
  obtain ⟨hmem, hnodup⟩ := List.nodup_cons.mp h.acyclic
  constructor
  · rw [hheap, hfirst]
    exact h.chain.2.2.update hmem _
  · exact hnodup
  · rw [hlast, h.last]
    cases cells with
    | nil => rfl
    | cons x cells => rfl
  · rw [hnum, h.numInList, List.length_cons, Int.natCast_succ, Int.add_sub_cancel]
  · intro b hb
    exact h.free b (List.mem_cons_of_mem _ hb)
  · intro b hb
    rw [hheap]
    by_cases hba : b = a
    · rw [hba, Function.update_self, h.free a List.mem_cons_self]
    · rw [Function.update_of_ne hba]
      exact h.others b (not_or.mpr ⟨hba, hb⟩ ∘ List.mem_cons.mp)

theorem Holds.link (h : Holds base l (xs ++ (p, c) :: ys)) (he : l.heap e = none)
    (hheap : l'.heap = Function.update (Function.update l.heap e (some ⟨c.next, k, item⟩)) p
      (some { c with next := some e }))
    (hfirst : l'.first = l.first) (hlast : l'.last = if ys = [] then some e else l.last)
    (hnum : l'.numInList = l.numInList + 1) :
    Holds base l' (xs ++ (p, { c with next := some e }) :: (e, ⟨c.next, k, item⟩) :: ys) := by
  have hfree := h.chain.not_mem_of_free he
  have hnodup := h.acyclic
  simp only [List.map_append, List.map_cons, List.mem_append, List.mem_cons, not_or] at hfree
  obtain ⟨hex, hep, hey⟩ := hfree
  simp only [List.map_append, List.map_cons, List.nodup_middle, List.nodup_cons, List.mem_append,
    not_or] at hnodup
  obtain ⟨⟨hpx, hpy⟩, hrest⟩ := hnodup
  obtain ⟨r, hxs, rfl, hp, hys⟩ := chain_append.mp h.chain
  constructor
  · rw [hfirst, hheap]
    refine chain_append.mpr ⟨_, (hxs.update hex _).update hpx _, rfl, Function.update_self ..,
      rfl, ?_, (hys.update hey _).update hpy _⟩
    rw [Function.update_of_ne hep, Function.update_self]
  · simp only [List.map_append, List.map_cons, List.nodup_middle, List.nodup_cons,
      List.mem_append, List.mem_cons, not_or]
    refine ⟨⟨hpx, fun hpe => hep hpe.symm, hpy⟩, ⟨hex, hey⟩, hrest⟩
  · rw [hlast, h.last]
    cases ys with
    | nil => simp
    | cons y ys => simp
  · rw [hnum, h.numInList]
    simp only [List.length_append, List.length_cons]
    omega
  · intro a ha
    have hmem := h.free a
    simp only [List.map_append, List.map_cons, List.mem_append, List.mem_cons] at ha hmem
    by_cases hae : a = e
    · rw [hae, ← h.others e (by simp [hex, hep, hey]), he]
    · exact hmem (by tauto)
  · intro a ha
    simp only [List.map_append, List.map_cons, List.mem_append, List.mem_cons, not_or] at ha
    obtain ⟨hax, hap, hae, hay⟩ := ha
    rw [hheap, Function.update_of_ne hap, Function.update_of_ne hae]
    exact h.others a (by simp [hax, hap, hay])

theorem Holds.unlink (h : Holds base l (xs ++ (p, c) :: (a, d) :: ys))
    (hheap : l'.heap =
      Function.update (Function.update l.heap p (some { c with next := d.next })) a none)
    (hfirst : l'.first = l.first) (hlast : l'.last = if ys = [] then some p else l.last)
    (hnum : l'.numInList = l.numInList - 1) :
    Holds base l' (xs ++ (p, { c with next := d.next }) :: ys) := by
  have hnodup := h.acyclic
  simp only [List.map_append, List.map_cons, List.nodup_middle, List.nodup_cons, List.mem_append,
    List.mem_cons, not_or] at hnodup
  obtain ⟨⟨hpx, hpa, hpy⟩, ⟨hax, hay⟩, hrest⟩ := hnodup
  obtain ⟨r, hxs, rfl, hp, -, ha, hys⟩ := chain_append.mp h.chain
  constructor
  · rw [hfirst, hheap]
    refine chain_append.mpr ⟨_, (hxs.update hpx _).update hax _, rfl, ?_,
      (hys.update hpy _).update hay _⟩
    rw [Function.update_of_ne hpa, Function.update_self]
  · simp only [List.map_append, List.map_cons, List.nodup_middle, List.nodup_cons,
      List.mem_append, not_or]
    exact ⟨⟨hpx, hpy⟩, hrest⟩
  · rw [hlast, h.last]
    cases ys with
    | nil => simp
    | cons y ys => simp
  · rw [hnum, h.numInList]
    simp only [List.length_append, List.length_cons]
    omega
  · intro b hb
    have hmem := h.free b
    simp only [List.map_append, List.map_cons, List.mem_append, List.mem_cons] at hb hmem
    exact hmem (by tauto)
  · intro b hb
    simp only [List.map_append, List.map_cons, List.mem_append, List.mem_cons, not_or] at hb
    obtain ⟨hbx, hbp, hby⟩ := hb
    rw [hheap]
    by_cases hba : b = a
    · rw [hba, Function.update_self, h.free a (by simp)]
    · rw [Function.update_of_ne hba, Function.update_of_ne hbp]
      exact h.others b (by simp [hbx, hbp, hba, hby])

/-! ## Operations -/

theorem Holds.isEmpty_eq (h : Holds base l cells) : l.isEmpty = cells.isEmpty := by
  have hc := h.chain
  cases cells with
  | nil =>
    rw [isEmpty, hc]
    rfl
  | cons x cells =>
    rw [isEmpty, hc.1]
    rfl

theorem Holds.putOnly (h : Holds base l []) (he : l.heap e = none) :
    Holds base ((l.newElement e item k).putOnly e) [(e, ⟨none, k, item⟩)] := by
  have hfirst : l.first = none := h.chain
  rw [← hfirst]
  refine h.push he ?_ rfl rfl rfl
  rw [hfirst]
  rfl

theorem Holds.heap_newElement (h : Holds base l cells) (he : l.heap e = none)
    (hc : (a, c) ∈ cells) : (l.newElement e item k).heap a = some c := by
  have ha := h.chain.heap_eq hc
  have hne : a ≠ e := by
    rintro rfl
    rw [ha] at he
    cases he
  exact (Function.update_of_ne hne ..).trans ha

theorem Holds.putLast (item : α) (k : Int) (h : Holds base l (xs ++ [(p, c)]))
    (he : l.heap e = none) :
    ∃ l', (l.newElement e item k).putLast e = some l' ∧
      Holds base l' (xs ++ [(p, { c with next := some e }), (e, ⟨none, k, item⟩)]) := by
  have hlast : (l.newElement e item k).last = some p := by
    have hl : l.last = some p := by
      rw [h.last, List.getLast?_concat]
      rfl
    exact hl
  obtain ⟨r, -, -, -, hnext⟩ := chain_append.mp h.chain
  have hp : (l.newElement e item k).heap p = some c :=
    h.heap_newElement he (List.mem_append_right xs List.mem_cons_self)
  rw [LinkedList.putLast, hlast, Option.bind_eq_bind, Option.bind_some, setNext_eq hp]
  refine ⟨_, rfl, ?_⟩
  have hnext : c.next = none := hnext
  rw [← hnext]
  exact h.link he (by rw [hnext]; rfl) rfl rfl rfl

def Yields (base : Nat → Option (ListElement α)) (r : Option (LinkedList α))
    (items : List (Int × α)) : Prop :=
  ∃ l cells, r = some l ∧ Holds base l cells ∧ entries cells = items

theorem setNext_newElement (l : LinkedList α) (e : Nat) (item : α) (k : Int) (next : Option Nat) :
    (l.newElement e item k).setNext e next =
      some { l with heap := Function.update l.heap e (some ⟨next, k, item⟩) } := by
  have hnew : (l.newElement e item k).heap e = some ⟨none, k, item⟩ := Function.update_self ..
  rw [setNext_eq hnew, newElement, Function.update_idem]

theorem Holds.append (h : Holds base l cells) (he : l.heap e = none) :
    Yields base (l.append e item) (entries cells ++ [(0, item)]) := by
  have hempty : (l.newElement e item 0).isEmpty = cells.isEmpty := h.isEmpty_eq
  unfold LinkedList.append
  simp only [hempty]
  rcases List.eq_nil_or_concat' cells with rfl | ⟨xs, ⟨p, c⟩, rfl⟩
  · exact ⟨_, _, rfl, h.putOnly he, rfl⟩
  · obtain ⟨l', hl', hholds⟩ := h.putLast item 0 he
    refine ⟨l', _, ?_, hholds, by simp [entries]⟩
    rw [← hl']
    exact if_neg (by simp)

theorem Holds.putFirst {x : Nat × ListElement α} (item : α) (k : Int)
    (h : Holds base l (x :: cells)) (he : l.heap e = none) :
    Yields base ((l.newElement e item k).putFirst e) ((k, item) :: entries (x :: cells)) := by
  rw [LinkedList.putFirst, setNext_newElement]
  exact ⟨_, _, rfl, h.push he rfl rfl rfl rfl, rfl⟩

theorem Holds.prepend (h : Holds base l cells) (he : l.heap e = none) :
    Yields base (l.prepend e item) ((0, item) :: entries cells) := by
  have hempty : (l.newElement e item 0).isEmpty = cells.isEmpty := h.isEmpty_eq
  unfold LinkedList.prepend
  simp only [hempty]
  cases cells with
  | nil => exact ⟨_, _, rfl, h.putOnly he, rfl⟩
  | cons x cells => exact h.putFirst item 0 he

/-- The loop starts at a cell whose key is not larger: the new cell goes somewhere behind it. -/
theorem Holds.sortedInsertLoop (xs : List (Nat × ListElement α)) (item : α) (k : Int)
    (h : Holds base l (xs ++ (p, c) :: ys)) (he : l.heap e = none) {fuel : Nat}
    (hfuel : ys.length < fuel) :
    Yields base ((l.newElement e item k).sortedInsertLoop e k fuel p)
      (entries xs ++ (c.key, c.item) :: Nachos.sortedInsert item k (entries ys)) := by
  obtain ⟨fuel, rfl⟩ := Nat.exists_eq_succ_of_ne_zero (Nat.ne_zero_of_lt hfuel)
  obtain ⟨r, -, -, -, hnext⟩ := chain_append.mp h.chain
  have hp : (l.newElement e item k).heap p = some c :=
    h.heap_newElement he (List.mem_append_right xs List.mem_cons_self)
  -- the induction is on the cells that are still ahead
  induction ys generalizing xs p c fuel with
  | nil =>
    have hnext : c.next = none := hnext
    obtain ⟨l', hl', hholds⟩ := h.putLast item k he
    refine ⟨l', _, ?_, hholds, by simp [entries, Nachos.sortedInsert]⟩
    rw [LinkedList.sortedInsertLoop, hp]
    simp only [Option.bind_eq_bind, Option.bind_some, hnext, hl']
  | cons y ys ih =>
    obtain ⟨n, d⟩ := y
    obtain ⟨hcn, -, hdn⟩ := hnext
    have hn : (l.newElement e item k).heap n = some d :=
      h.heap_newElement he (List.mem_append_right xs (by simp))
    rw [LinkedList.sortedInsertLoop, hp]
    simp only [Option.bind_eq_bind, Option.bind_some, hcn, hn]
    by_cases hk : k < d.key
    · have hpe : p ≠ e := by
        rintro rfl
        rw [h.chain.heap_eq (List.mem_append_right xs List.mem_cons_self)] at he
        cases he
      have hp' : Function.update l.heap e (some ⟨some n, k, item⟩) p = some c := by
        rw [Function.update_of_ne hpe]
        exact h.chain.heap_eq (List.mem_append_right xs List.mem_cons_self)
      rw [if_pos hk, setNext_newElement, Option.bind_some, setNext_eq hp', ← hcn]
      refine ⟨_, _, rfl, h.link he rfl rfl rfl rfl, ?_⟩
      simp [entries, Nachos.sortedInsert, hk]
    · have hassoc : xs ++ (p, c) :: (n, d) :: ys = (xs ++ [(p, c)]) ++ (n, d) :: ys := by simp
      obtain ⟨fuel, rfl⟩ := Nat.exists_eq_succ_of_ne_zero
        (show fuel ≠ 0 by rw [List.length_cons] at hfuel; omega)
      obtain ⟨l', cells, hl', hholds, hentries⟩ :=
        ih (xs ++ [(p, c)]) (hassoc ▸ h) fuel (by rw [List.length_cons] at hfuel; omega) hdn hn
      refine ⟨l', cells, ?_, hholds, ?_⟩
      · rw [if_neg hk]
        exact hl'
      · rw [hentries]
        simp [entries, Nachos.sortedInsert, hk]

theorem Holds.sortedInsert (h : Holds base l cells) (he : l.heap e = none) {fuel : Nat}
    (hfuel : cells.length ≤ fuel) :
    Yields base (l.sortedInsert fuel e item k) (Nachos.sortedInsert item k (entries cells)) := by
  have hempty : (l.newElement e item k).isEmpty = cells.isEmpty := h.isEmpty_eq
  unfold LinkedList.sortedInsert
  simp only [hempty]
  cases cells with
  | nil => exact ⟨_, _, rfl, h.putOnly he, rfl⟩
  | cons x cells =>
    obtain ⟨p, c⟩ := x
    have hfirst : (l.newElement e item k).first = some p := h.chain.1
    have hp : (l.newElement e item k).heap p = some c :=
      h.heap_newElement he List.mem_cons_self
    simp only [List.isEmpty_cons, Bool.false_eq_true, if_false, hfirst, Option.bind_eq_bind,
      Option.bind_some, hp]
    by_cases hk : k < c.key
    · rw [if_pos hk]
      have hput := h.putFirst item k he
      simpa [entries, Nachos.sortedInsert, hk] using hput
    · rw [if_neg hk]
      have hloop := Holds.sortedInsertLoop [] item k h he hfuel
      simpa [entries, Nachos.sortedInsert, hk] using hloop

theorem Holds.first_eq_last_iff (h : Holds base l ((p, c) :: cells)) :
    l.first = l.last ↔ cells = [] := by
  rw [h.chain.1, h.last]
  constructor
  · intro heq
    by_contra hne
    have hlast : (((p, c) :: cells).getLast?).map Prod.fst = some (cells.getLast hne).1 := by
      rw [List.getLast?_cons_of_ne_nil hne, List.getLast?_eq_getLast_of_ne_nil hne, Option.map_some]
    have hp : p = (cells.getLast hne).1 := Option.some.inj (heq.trans hlast)
    have hmem : (cells.getLast hne).1 ∈ cells.map Prod.fst :=
      List.mem_map_of_mem (List.getLast_mem hne)
    rw [← hp] at hmem
    exact (List.nodup_cons.mp h.acyclic).1 hmem
  · rintro rfl
    rfl

theorem Holds.sortedRemove (h : Holds base l cells) :
    ∃ l', l.sortedRemove = some ((entries cells).head?, l') ∧ Holds base l' cells.tail := by
  cases cells with
  | nil =>
    have hfirst : l.first = none := h.chain
    refine ⟨l, ?_, h⟩
    unfold LinkedList.sortedRemove
    rw [hfirst]
    rfl
  | cons x cells =>
    obtain ⟨p, c⟩ := x
    obtain ⟨hfirst, hp, hrest⟩ := h.chain
    have hone := h.first_eq_last_iff
    unfold LinkedList.sortedRemove
    split
    · next heq =>
      rw [hfirst] at heq
      cases heq
    · next element heq =>
      obtain rfl : p = element := Option.some.inj (hfirst.symm.trans heq)
      simp only [hp, Option.bind_eq_bind, Option.bind_some, hone]
      refine ⟨_, rfl, ?_⟩
      by_cases hnil : cells = []
      · subst hnil
        exact h.pop rfl hrest.symm rfl rfl
      · refine h.pop ?_ ?_ ?_ ?_ <;> simp [hnil]

theorem Yields.void {r : Option (LinkedList α)} {items : List (Int × α)}
    (hr : Yields base r items) :
    ∃ l' cells', r.map (fun l => ((.void : ListReply α), l)) = some (.void, l') ∧
      Holds base l' cells' ∧ entries cells' = items := by
  obtain ⟨l', cells', rfl, hholds, hitems⟩ := hr
  exact ⟨l', cells', rfl, hholds, hitems⟩

section
variable [DecidableEq α]

theorem Holds.removeLoop (xs : List (Nat × ListElement α)) (h : Holds base l (xs ++ (p, c) :: ys))
    {fuel : Nat} (hfuel : ys.length ≤ fuel) (hmem : ∃ x ∈ entries ys, x.2 = item) :
    Yields base (l.removeLoop item fuel p c.next)
      (entries xs ++ (c.key, c.item) :: (entries ys).eraseP fun x => decide (x.2 = item)) := by
  induction ys generalizing xs p c fuel with
  | nil =>
    obtain ⟨x, hx, -⟩ := hmem
    cases hx
  | cons y ys ih =>
    obtain ⟨a, d⟩ := y
    obtain ⟨fuel, rfl⟩ := Nat.exists_eq_succ_of_ne_zero
      (show fuel ≠ 0 by rw [List.length_cons] at hfuel; omega)
    obtain ⟨r, -, -, hp, hnext, ha, hys⟩ := chain_append.mp h.chain
    rw [hnext, LinkedList.removeLoop, ha]
    simp only [Option.bind_eq_bind, Option.bind_some]
    by_cases hitem : item = d.item
    · have hend : d.next = none ↔ ys = [] := by
        cases ys with
        | nil => exact iff_of_true hys rfl
        | cons y ys => exact iff_of_false (by rw [hys.1]; simp) (by simp)
      rw [if_pos hitem, setNext_eq hp]
      simp only [Option.bind_some, Function.update_self, hend]
      refine ⟨_, _, rfl, h.unlink ?_ ?_ ?_ ?_, ?_⟩
      · split <;> rfl
      · split <;> rfl
      · split <;> rfl
      · split <;> rfl
      · simp [entries, hitem]
    · have hassoc : xs ++ (p, c) :: (a, d) :: ys = (xs ++ [(p, c)]) ++ (a, d) :: ys := by simp
      have hmem' : ∃ x ∈ entries ys, x.2 = item := by
        obtain ⟨x, hx, hxi⟩ := hmem
        rcases List.mem_cons.mp hx with rfl | hx
        · exact absurd hxi.symm hitem
        · exact ⟨x, hx, hxi⟩
      obtain ⟨l', cells, hl', hholds, hentries⟩ :=
        ih (xs ++ [(p, c)]) (hassoc ▸ h) (Nat.le_of_succ_le_succ hfuel) hmem'
      refine ⟨l', cells, ?_, hholds, ?_⟩
      · rw [if_neg hitem]
        exact hl'
      · rw [hentries]
        simp [entries, Ne.symm hitem]

theorem Holds.removeLoop_absent (xs : List (Nat × ListElement α))
    (h : Holds base l (xs ++ (p, c) :: ys)) (fuel : Nat) (hmem : ¬ ∃ x ∈ entries ys, x.2 = item) :
    l.removeLoop item fuel p c.next = none := by
  induction ys generalizing xs p c fuel with
  | nil =>
    obtain ⟨r, -, -, -, hnext⟩ := chain_append.mp h.chain
    have hnext : c.next = none := hnext
    rw [hnext]
    cases fuel <;> rfl
  | cons y ys ih =>
    obtain ⟨a, d⟩ := y
    obtain ⟨r, -, -, -, hnext, ha, -⟩ := chain_append.mp h.chain
    have hassoc : xs ++ (p, c) :: (a, d) :: ys = (xs ++ [(p, c)]) ++ (a, d) :: ys := by simp
    have hitem : item ≠ d.item := fun heq => hmem ⟨_, List.mem_cons_self, heq.symm⟩
    have hrest : ¬ ∃ x ∈ entries ys, x.2 = item := by
      rintro ⟨x, hx, hxi⟩
      exact hmem ⟨x, List.mem_cons_of_mem _ hx, hxi⟩
    rw [hnext]
    cases fuel with
    | zero => rfl
    | succ fuel =>
      rw [LinkedList.removeLoop, ha]
      simp only [Option.bind_eq_bind, Option.bind_some, if_neg hitem]
      exact ih (xs ++ [(p, c)]) (hassoc ▸ h) fuel hrest

theorem Holds.removeItem (h : Holds base l cells) {fuel : Nat} (hfuel : cells.length ≤ fuel)
    (hmem : ∃ x ∈ entries cells, x.2 = item) :
    Yields base (l.removeItem fuel item)
      ((entries cells).eraseP fun x => decide (x.2 = item)) := by
  cases cells with
  | nil =>
    obtain ⟨x, hx, -⟩ := hmem
    cases hx
  | cons x cells =>
    obtain ⟨p, c⟩ := x
    obtain ⟨hfirst, hp, -⟩ := h.chain
    rw [LinkedList.removeItem, hfirst]
    simp only [Option.bind_eq_bind, Option.bind_some, hp]
    by_cases hitem : item = c.item
    · obtain ⟨l', hl', hholds⟩ := h.sortedRemove
      refine ⟨l', cells, ?_, hholds, by simp [entries, hitem]⟩
      rw [if_pos hitem, LinkedList.remove, hl']
      simp [entries, hitem]
    · have hmem' : ∃ x ∈ entries cells, x.2 = item := by
        obtain ⟨x, hx, hxi⟩ := hmem
        rcases List.mem_cons.mp hx with rfl | hx
        · exact absurd hxi.symm hitem
        · exact ⟨x, hx, hxi⟩
      have hloop := Holds.removeLoop [] h (Nat.le_of_succ_le hfuel) hmem'
      rw [if_neg hitem]
      simpa [entries, Ne.symm hitem] using hloop

theorem Holds.removeItem_absent (h : Holds base l cells) (fuel : Nat)
    (hmem : ¬ ∃ x ∈ entries cells, x.2 = item) : l.removeItem fuel item = none := by
  cases cells with
  | nil =>
    have hfirst : l.first = none := h.chain
    rw [LinkedList.removeItem, hfirst]
    rfl
  | cons x cells =>
    obtain ⟨p, c⟩ := x
    obtain ⟨hfirst, hp, -⟩ := h.chain
    have hitem : item ≠ c.item := fun heq => hmem ⟨_, List.mem_cons_self, heq.symm⟩
    rw [LinkedList.removeItem, hfirst]
    simp only [Option.bind_eq_bind, Option.bind_some, hp, if_neg hitem]
    apply Holds.removeLoop_absent [] h
    rintro ⟨x, hx, hxi⟩
    exact hmem ⟨x, List.mem_cons_of_mem _ hx, hxi⟩

/-! ## Calls in a row -/

/-- A call on the cells is the call on the sequence. -/
theorem Holds.perform (h : Holds base l cells) (he : l.heap e = none) {fuel : Nat}
    (hfuel : cells.length ≤ fuel) {call : ListCall α} (happly : call.Applies (entries cells)) :
    ∃ l' cells', l.perform fuel e call = some ((call.onSequence (entries cells)).1, l') ∧
      Holds base l' cells' ∧ entries cells' = (call.onSequence (entries cells)).2 := by
  cases call with
  | append item => exact (h.append he).void
  | prepend item => exact (h.prepend he).void
  | sortedInsert item sortKey => exact (h.sortedInsert he hfuel).void
  | removeItem item => exact (h.removeItem hfuel happly).void
  | remove =>
    obtain ⟨l', hl', hholds⟩ := h.sortedRemove
    refine ⟨l', cells.tail, ?_, hholds, List.map_tail⟩
    simp only [LinkedList.perform, LinkedList.remove, hl']
    rfl
  | sortedRemove =>
    obtain ⟨l', hl', hholds⟩ := h.sortedRemove
    refine ⟨l', cells.tail, ?_, hholds, List.map_tail⟩
    simp only [LinkedList.perform, hl']
    rfl

theorem Holds.isSome_perform_iff (h : Holds base l cells) (he : l.heap e = none) {fuel : Nat}
    (hfuel : cells.length ≤ fuel) (call : ListCall α) :
    (l.perform fuel e call).isSome ↔ call.Applies (entries cells) := by
  constructor
  · intro hsome
    by_contra happly
    cases call with
    | removeItem item =>
      rw [LinkedList.perform, h.removeItem_absent fuel happly] at hsome
      cases hsome
    | _ => exact happly trivial
  · intro happly
    obtain ⟨l', cells', hl', -⟩ := h.perform he hfuel happly
    rw [hl']
    rfl

theorem Holds.performAll (h : Holds base l cells) {fuel : Nat} {calls : List (Nat × ListCall α)}
    (hfuel : cells.length + calls.length ≤ fuel) {replies : List (ListReply α)}
    (hrun : l.performAll fuel calls = some (replies, l')) :
    ∃ cells', Holds base l' cells' ∧ cells'.length ≤ fuel ∧
      ListCall.runOnSequence (entries cells) (calls.map Prod.snd) = (replies, entries cells') := by
  induction calls generalizing l cells replies with
  | nil =>
    cases hrun
    exact ⟨cells, h, hfuel, rfl⟩
  | cons x calls ih =>
    obtain ⟨e, call⟩ := x
    rw [LinkedList.performAll] at hrun
    rw [List.length_cons] at hfuel
    by_cases hused : (l.heap e).isSome
    · rw [if_pos hused] at hrun
      cases hrun
    have he : l.heap e = none := Option.not_isSome_iff_eq_none.mp hused
    have happly : call.Applies (entries cells) := by
      rw [← h.isSome_perform_iff he (show cells.length ≤ fuel by omega)]
      by_contra hnone
      rw [if_neg hused, Option.not_isSome_iff_eq_none.mp hnone] at hrun
      cases hrun
    obtain ⟨l₁, cells₁, hl₁, hholds, hentries⟩ :=
      h.perform he (show cells.length ≤ fuel by omega) happly
    have hlength : cells₁.length ≤ cells.length + 1 := by
      rw [← length_entries cells₁, hentries, ← length_entries cells]
      exact ListCall.length_onSequence_le ..
    rw [if_neg hused, hl₁, Option.bind_eq_bind, Option.bind_some] at hrun
    obtain ⟨⟨replies₁, l₂⟩, hrest, hpair⟩ := Option.bind_eq_some_iff.mp hrun
    cases hpair
    obtain ⟨cells', hholds', hle, hseq⟩ := ih hholds (by omega) hrest
    refine ⟨cells', hholds', hle, ?_⟩
    rw [hentries] at hseq
    simp only [List.map_cons, ListCall.runOnSequence, hseq]

/-- Whatever is called on a new list, wherever `new` puts the elements: the list is the sequence,
linked from `first` to `last` without a cycle, and no other memory has changed. Only the removal of
an item that is not there fails. The calls for sorted lists keep the sequence sorted, and put a new
item behind those with the same key. -/
theorem calls_refine_sequence (base : Nat → Option (ListElement α))
    (calls : List (Nat × ListCall α)) (fuel : Nat) (hfuel : calls.length ≤ fuel)
    (replies : List (ListReply α)) (l : LinkedList α)
    (hrun : (initial base).performAll fuel calls = some (replies, l)) :
    ∃ cells, Holds base l cells ∧
      ListCall.runOnSequence [] (calls.map Prod.snd) = (replies, entries cells) ∧
      (∀ e call, l.heap e = none →
        ((l.perform fuel e call).isSome ↔ call.Applies (entries cells))) ∧
      ((∀ call ∈ calls.map Prod.snd, call.Sorted) →
        (entries cells).Pairwise (·.1 ≤ ·.1) ∧
        ∀ item k, ∃ before after, entries cells = before ++ after ∧
          Nachos.sortedInsert item k (entries cells) = before ++ (k, item) :: after ∧
          (∀ x ∈ before, x.1 ≤ k) ∧ ∀ x ∈ after, k < x.1) := by
  obtain ⟨cells, hholds, hlength, hseq⟩ :=
    (holds_initial base).performAll (by simpa using hfuel) hrun
  refine ⟨cells, hholds, hseq, fun e call he => hholds.isSome_perform_iff he hlength call,
    fun hsorted => ?_⟩
  have hpairwise : (entries cells).Pairwise (·.1 ≤ ·.1) := by
    have hrun : (ListCall.runOnSequence [] (calls.map Prod.snd)).2.Pairwise (·.1 ≤ ·.1) :=
      ListCall.pairwise_runOnSequence hsorted List.Pairwise.nil
    rwa [show ([] : List (Int × α)) = entries [] from rfl, hseq] at hrun
  exact ⟨hpairwise, fun item k => exists_sortedInsert_eq item k hpairwise⟩

end

/-- Three items go to addresses 0, 1 and 0 again. -/
theorem calls_refine_three :
    ∃ replies l, (initial (α := Nat) fun _ => none).performAll 4
        [(0, .append 5), (1, .sortedInsert 6 (-1)), (2, .removeItem 5), (0, .sortedInsert 7 (-1))] =
          some (replies, l) ∧
      ∃ cells, Holds (fun _ => none) l cells ∧ entries cells = [(-1, 6), (-1, 7)] := by
  obtain ⟨⟨replies, l⟩, hrun⟩ := Option.isSome_iff_exists.mp
    (show ((initial (α := Nat) fun _ => none).performAll 4
      [(0, .append 5), (1, .sortedInsert 6 (-1)), (2, .removeItem 5),
        (0, .sortedInsert 7 (-1))]).isSome by decide)
  obtain ⟨cells, hholds, hseq, -⟩ := calls_refine_sequence _ _ 4 (by decide) replies l hrun
  exact ⟨replies, l, hrun, cells, hholds, (Prod.mk.inj hseq).2.symm⟩

end LinkedList
end Nachos
