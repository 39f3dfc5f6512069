import Nachos.Machine.Coherence
import Nachos.Threads.ThreadId

/-! What a thread leaves behind. Neither `Finish` nor the destructors of `Thread` and `AddrSpace`
touch the page table or `memBitMap`, so the entries and frames of a destroyed thread stay as they
are until another page fault takes them. -/

namespace Nachos
open Lib Threads

/-- The threads and the memory that they share, with the threads that have called `Finish`. Who
filled an entry and who got a frame last is recorded next to the state of the machine. -/
structure System where
  table : ThreadTable
  memory : Memory
  finished : List Thread
  installer : Fin 32 → Thread
  holder : Int → Thread

inductive SystemEvent where
  | create
  | access (t : Thread) (now : Int) (a : Access)
  | finish (t : Thread)
  | destroy (t : Thread)

namespace System

def initial (m : Memory) : System where
  table := .initial
  memory := m
  finished := []
  installer _ := 0
  holder _ := 0

def Running (s : System) (t : Thread) : Prop := t ∈ s.table.live ∧ t ∉ s.finished

instance (s : System) (t : Thread) : Decidable (s.Running t) := inferInstanceAs (Decidable (_ ∧ _))

/-- An access of a thread, with the service of its page fault. -/
def access (s : System) (t : Thread) (now : Int) (a : Access) : Option System :=
  (s.memory.attempt (s.table.tid t) now a).map fun
    | (.done _, m) => { s with memory := m }
    | (.faulted, m) =>
      { s with
        memory := m
        installer := Function.update s.installer s.memory.given t
        holder := Function.update s.holder s.memory.givenFrame t }

def step (s : System) : SystemEvent → Option System
  | .create => some { s with table := s.table.construct }
  | .access t now a => if s.Running t then s.access t now a else none
  | .finish t => if s.Running t then some { s with finished := t :: s.finished } else none
  | .destroy t =>
    if t ∈ s.table.live ∧ t ∈ s.finished then some { s with table := s.table.destruct t } else none

/-- Each valid entry has the id of a living thread that filled it, and each frame that is marked
was given to a living thread. -/
structure Released (s : System) : Prop where
  entries : ∀ i, (s.memory.pageTable i).valid = true →
    s.installer i ∈ s.table.live ∧ (s.memory.pageTable i).tid = s.table.tid (s.installer i)
  frames : ∀ f < 32, s.memory.memBitMap.testBit f = true → s.holder f ∈ s.table.live

/-- A thread that is destroyed has no page in memory any more, and no frame. -/
def LeavesNothing (s : System) : SystemEvent → Prop
  | .destroy t => (∀ i, (s.memory.pageTable i).valid = true → s.installer i ≠ t) ∧
      ∀ f < 32, s.memory.memBitMap.testBit f = true → s.holder f ≠ t
  | _ => True

structure Inv (s : System) : Prop extends Released s where
  nodup : s.table.live.Nodup
  created : ∀ t ∈ s.table.live, t < s.table.created

variable {s s' : System} {t : Thread} {now : Int} {a : Access} {e : SystemEvent}

theorem tid_construct {m : ThreadTable} {u : Thread} (hu : u ≠ m.created) :
    m.construct.tid u = m.tid u := by
  rw [ThreadTable.construct]
  split <;> exact Function.update_of_ne hu ..

theorem created_construct {m : ThreadTable} : m.construct.created = m.created + 1 := by
  rw [ThreadTable.construct]
  split <;> rfl

theorem Inv.create (h : s.Inv) : Inv { s with table := s.table.construct } := by
  refine ⟨⟨fun i hv => ?_, fun f hf hm => ?_⟩, ?_, ?_⟩ <;>
    simp only [ThreadTable.live_construct, created_construct]
  · obtain ⟨hl, ht⟩ := h.entries i hv
    refine ⟨List.mem_cons_of_mem _ hl, ?_⟩
    rw [tid_construct (h.created _ hl).ne]
    exact ht
  · exact List.mem_cons_of_mem _ (h.frames f hf hm)
  · exact List.nodup_cons.mpr ⟨fun hm => (h.created _ hm).false, h.nodup⟩
  · simp only [List.forall_mem_cons]
    exact ⟨Nat.lt_succ_self _, fun t ht => (h.created t ht).trans (Nat.lt_succ_self _)⟩

theorem Inv.access (h : s.Inv) (ht : t ∈ s.table.live) (hs : s.access t now a = some s') :
    s'.Inv := by
  rw [System.access] at hs
  obtain ⟨⟨r, m⟩, hr, he⟩ := Option.map_eq_some_iff.mp hs
  cases r with
  | done v =>
    cases he
    obtain ⟨i, hi, -, rfl⟩ := Memory.attempt_done hr
    refine ⟨⟨fun j hv => ?_, h.frames⟩, h.nodup, h.created⟩
    have hsame := @Memory.performed_entry s.memory (s.table.tid t) now i a j
    rw [hsame.1] at hv
    rw [hsame.2.2.1]
    exact h.entries j hv
  | faulted =>
    cases he
    obtain ⟨-, -, rfl⟩ := Memory.attempt_faulted hr
    refine ⟨⟨fun j hv => ?_, fun f hf hm => ?_⟩, h.nodup, h.created⟩
    · simp only [Memory.serviced_pageTable] at hv ⊢
      by_cases hj : j = s.memory.given
      · simp only [hj, Function.update_self]
        exact ⟨ht, trivial⟩
      · simp only [Function.update_of_ne hj] at hv ⊢
        exact h.entries j hv
    · simp only
      by_cases hg : (f : Int) = s.memory.givenFrame
      · rw [hg, Function.update_self]
        exact ht
      · rw [Function.update_of_ne hg]
        refine h.frames f hf ?_
        -- the only frame that is marked now is the one that was given
        rw [Memory.serviced_memBitMap] at hm
        split at hm
        · exact hm
        · next hn =>
          obtain hfull | ⟨f', hlt, -, hfind⟩ := s.memory.find_cases
          · rwa [hfull] at hm
          · rw [hfind, BitMap.testBit_markBit (by rwa [s.memory.numBits]), Bool.or_eq_true] at hm
            obtain hm | hm := hm
            · refine absurd ?_ hg
              rw [of_decide_eq_true hm, Memory.givenFrame, if_neg hn, hfind]
            · exact hm

theorem Inv.destroy (h : s.Inv) (hl : s.LeavesNothing (.destroy t)) :
    Inv { s with table := s.table.destruct t } := by
  refine ⟨⟨fun i hv => ?_, fun f hf hm => ?_⟩, h.nodup.erase t,
    fun u hu => h.created u (List.mem_of_mem_erase hu)⟩
  · obtain ⟨hlive, ht⟩ := h.entries i hv
    exact ⟨h.nodup.mem_erase_iff.mpr ⟨hl.1 i hv, hlive⟩, ht⟩
  · exact h.nodup.mem_erase_iff.mpr ⟨hl.2 f hf hm, h.frames f hf hm⟩

theorem Inv.step (h : s.Inv) (hs : s.step e = some s') (hl : s.LeavesNothing e) : s'.Inv := by
  cases e with
  | create =>
    cases hs
    exact h.create
  | access t now a =>
    rw [System.step] at hs
    split at hs
    · next ht => exact h.access ht.1 hs
    · cases hs
  | finish t =>
    rw [System.step] at hs
    split at hs
    · cases hs
      exact ⟨⟨h.entries, h.frames⟩, h.nodup, h.created⟩
    · cases hs
  | destroy t =>
    rw [System.step] at hs
    split at hs
    · cases hs
      exact h.destroy hl
    · cases hs

theorem Inv.not_released (h : s.Inv) (hs : s.step e = some s') (hl : ¬ s.LeavesNothing e) :
    ¬ s'.Released := by
  intro hr
  cases e with
  | destroy t =>
    rw [System.step] at hs
    split at hs
    · cases hs
      have hgone : ∀ u ∈ (s.table.destruct t).live, u ≠ t := fun u hu =>
        (h.nodup.mem_erase_iff.mp hu).1
      exact hl ⟨fun i hv => hgone _ (hr.entries i hv).1, fun f hf hm => hgone _ (hr.frames f hf hm)⟩
    · cases hs
  | _ => exact hl trivial

theorem inv_initial (pageLasttime : Int → Int) (mainMemory : Int → Byte) (words : Nat → Word)
    (disk : BackingFile) : (initial (.initial pageLasttime mainMemory words disk)).Inv where
  entries i hv := by cases hv
  frames f hf hm := by
    have hfree : f ∈ (BitMap.new words 32).free := by
      rw [BitMap.free_new]
      simpa using hf
    have hb := (BitMap.mem_free.mp hfree).2
    rw [show (initial (.initial pageLasttime mainMemory words disk)).memory.memBitMap =
      BitMap.new words 32 from rfl, hb] at hm
    cases hm
  nodup := List.nodup_nil
  created t ht := by cases ht

end System

/-- Dead threads leave nothing behind in exactly those histories in which every thread that is
destroyed has lost all its pages and frames to page faults of others before. -/
theorem released_iff (pageLasttime : Int → Int) (mainMemory : Int → Byte) (words : Nat → Word)
    (disk : BackingFile) (history : List SystemEvent) :
    History.Always System.step System.Released
      (.initial (.initial pageLasttime mainMemory words disk)) history ↔
    History.Meets System.step System.LeavesNothing
      (.initial (.initial pageLasttime mainMemory words disk)) history :=
  History.always_iff_meets (fun _ h => h.toReleased) (fun _ _ _ h hs hl => h.step hs hl)
    (fun _ _ _ h hs hl => h.not_released hs hl)
    (System.inv_initial pageLasttime mainMemory words disk)

/-- A thread reads one word, finishes and is destroyed: its page stays in the table, for the next
thread with its id. -/
theorem not_released_oneRead :
    ¬ History.Always System.step System.Released
      (.initial (.initial (fun _ => 0) (fun _ => 0) (fun _ => 0) ⟨0, fun _ => 0⟩))
      [.create, .access 0 0 (.read 0 .word), .access 0 1 (.read 0 .word), .finish 0,
        .destroy 0] := by
  rintro ⟨-, h⟩
  obtain ⟨-, h⟩ := h _ rfl
  obtain ⟨-, h⟩ := h _ rfl
  obtain ⟨-, h⟩ := h _ rfl
  obtain ⟨-, h⟩ := h _ rfl
  have hr := h _ rfl
  have hlive := (hr.entries 0 (by decide +kernel)).1
  revert hlive
  decide +kernel

end Nachos
