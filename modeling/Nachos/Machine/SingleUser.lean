import Nachos.Machine.Reads
import Mathlib.Data.List.Induction

/-! A single user thread. It makes each access again right after its page fault, so that the entry
is used before the next one is needed, and no other thread writes to its part of the file. -/

namespace Nachos
open Lib

namespace Memory
variable {m : Memory} {tid : Int} {a : Access} {k : Nat}

theorem Filled.faults_or_hitBy (h : m.Filled k) (ha : misaligned a.addr a.size = false)
    (hw : ∀ i, (m.pageTable i).readOnly = false) : m.Faults tid a ∨ ∃ i, m.HitBy tid a i := by
  cases hl : (m.found tid a.vpn).getLast? with
  | none => exact .inl (found_eq_nil.mp (List.getLast?_eq_none_iff.mp hl))
  | some i =>
    have hv := (maps_iff.mp (mem_found.mp (List.mem_of_getLast? hl))).2.1
    have hf := h.frame i hv
    exact .inr ⟨i, ha, hl, by rw [hw i, Bool.false_and], by omega, by omega⟩

end Memory

namespace Users
variable {u u' : Users} {tid now : Int} {a : Access} {rest : List Access} {i : Fin 32}

/-- Only this thread has pages in memory, and an entry that was not used yet is for its next
access. -/
structure Alone (tid : Int) (u : Users) : Prop where
  filled : ∃ k, u.memory.Filled k
  own : ∀ i, (u.memory.pageTable i).valid = true → (u.memory.pageTable i).tid = tid
  writable : ∀ i, (u.memory.pageTable i).readOnly = false
  waiting : ∀ i, (u.memory.pageTable i).valid = true → (u.memory.pageTable i).use = false →
    ∃ a rest, u.todo tid = a :: rest ∧ u.memory.maps tid a.vpn i = true

namespace Alone

theorem use_of_faults (h : u.Alone tid) (ht : u.todo tid = a :: rest) (hf : u.memory.Faults tid a)
    (hv : (u.memory.pageTable i).valid = true) : (u.memory.pageTable i).use = true := by
  by_contra hu
  obtain ⟨a', rest', ht', hm⟩ := h.waiting i hv (by simpa using hu)
  obtain ⟨rfl, -⟩ := List.cons.inj (ht.symm.trans ht')
  rw [hf i] at hm
  cases hm

theorem serviced (h : u.Alone tid) (ht : u.todo tid = a :: rest) (hf : u.memory.Faults tid a) :
    Alone tid { u with memory := u.memory.serviced tid a } := by
  obtain ⟨k, hk⟩ := h.filled
  have hnew : ∀ j, j ≠ u.memory.given →
      (u.memory.serviced tid a).pageTable j = u.memory.pageTable j := fun j hj => by
    rw [Memory.serviced_pageTable, Function.update_of_ne hj]
  refine ⟨hk.serviced (fun i => h.use_of_faults ht hf) hf, fun j => ?_, fun j => ?_, fun j => ?_⟩
  · by_cases hj : j = u.memory.given
    · simp [hj, Memory.serviced_pageTable]
    · simp only [hnew j hj]
      exact h.own j
  · by_cases hj : j = u.memory.given
    · simp [hj, Memory.serviced_pageTable, h.writable]
    · simp only [hnew j hj]
      exact h.writable j
  · by_cases hj : j = u.memory.given
    · refine fun _ _ => ⟨a, rest, ht, Memory.maps_iff.mpr ?_⟩
      simp [hj, Memory.serviced_pageTable]
    · simp only [hnew j hj]
      intro hv hu
      rw [h.use_of_faults ht hf hv] at hu
      cases hu

theorem finished (h : u.Alone tid) (ht : u.todo tid = a :: rest) (hi : u.memory.HitBy tid a i) :
    (u.finished tid now a rest i).Alone tid := by
  obtain ⟨k, hk⟩ := h.filled
  have hmi := Memory.maps_iff.mp hi.maps
  have hsame : ∀ j, _ := @Memory.performed_entry u.memory tid now i a
  refine ⟨⟨k, hk.performed hmi.2.1⟩, fun j => ?_, fun j => ?_, fun j => ?_⟩ <;>
    simp only [Users.finished]
  · rw [(hsame j).1, (hsame j).2.2.1]
    exact h.own j
  · rw [(hsame j).2.2.2.2]
    exact h.writable j
  · rw [(hsame j).1]
    intro hv hu
    -- the entry of the access is in use now, and no other one was for its page
    have hji : j ≠ i := fun hji => by
      rw [hji, Memory.performed_pageTable, Function.update_self] at hu
      cases hu
    rw [Memory.performed_pageTable, Function.update_of_ne hji] at hu
    obtain ⟨a', rest', ht', hm⟩ := h.waiting j hv hu
    obtain ⟨rfl, -⟩ := List.cons.inj (ht.symm.trans ht')
    obtain ⟨htj, -, hpj⟩ := Memory.maps_iff.mp hm
    exact absurd (hk.pages j i hv hmi.2.1 (htj.trans hmi.1.symm) (hpj.trans hmi.2.2.symm)) hji

theorem keeps (h : u.Alone tid) (hs : u.step (tid, now) = some u') : u'.Alone tid := by
  obtain ⟨-, rfl⟩ | ⟨a, rest, ht, ⟨-, hf, rfl⟩ | ⟨i, hi, rfl⟩⟩ := step_cases hs
  · exact h
  · exact h.serviced ht hf
  · exact h.finished ht hi

theorem isPrivate (h : u.Alone tid) : u.memory.Private fun t _ => t = tid := by
  rintro hn t w rfl -
  obtain ⟨k, hk⟩ := h.filled
  refine (h.own _ ?_).symm
  by_contra hv
  have hu := hk.unused _ (by simpa using hv)
  rw [Memory.firstUnused_eq_none.mp hn] at hu
  cases hu

end Alone

def due (u : Users) (tid : Int) : Nat :=
  match u.todo tid with
  | [] => 0
  | a :: rest => 2 * rest.length + if u.memory.found tid a.vpn = [] then 2 else 1

theorem due_le : u.due tid ≤ 2 * (u.todo tid).length := by
  rw [due]
  split
  · exact Nat.zero_le _
  · next a rest ht =>
    rw [ht, List.length_cons]
    split <;> omega

theorem due_eq_zero : u.due tid = 0 ↔ u.todo tid = [] := by
  rw [due]
  split
  · next ht => simp [ht]
  · next a rest ht =>
    rw [ht]
    split <;> simp

theorem Alone.step (h : u.Alone tid)
    (ha : ∀ a ∈ u.todo tid, Memory.misaligned a.addr a.size = false) (now : Int) :
    ∃ u', u.step (tid, now) = some u' ∧ u'.Alone tid ∧ u'.due tid ≤ u.due tid - 1 := by
  cases ht : u.todo tid with
  | nil =>
    refine ⟨u, by rw [Users.step, ht], h, ?_⟩
    rw [due_eq_zero.mpr ht]
  | cons a rest =>
    obtain ⟨k, hk⟩ := h.filled
    have haa := ha a (ht ▸ List.mem_cons_self ..)
    have hcases : u.memory.Faults tid a ∨ ∃ i, u.memory.HitBy tid a i :=
      hk.faults_or_hitBy haa h.writable
    obtain hf | ⟨i, hi⟩ := hcases
    · refine ⟨_, by rw [Users.step, ht]; simp only [hf.attempt haa]; rfl, h.serviced ht hf, ?_⟩
      have hnow : (u.memory.serviced tid a).found tid a.vpn ≠ [] := List.ne_nil_of_mem
        (Memory.mem_found.mpr (Memory.maps_iff.mpr (by
          rw [Memory.serviced_pageTable, Function.update_self]
          exact ⟨rfl, rfl, rfl⟩)))
      simp only [due, ht, if_neg hnow, Memory.found_eq_nil.mpr hf, if_true]
      omega
    · refine ⟨_, by rw [Users.step, ht]; simp only [Memory.HitBy.attempt hi]; rfl,
        h.finished ht hi, ?_⟩
      have hhit : u.memory.found tid a.vpn ≠ [] :=
        List.ne_nil_of_mem (Memory.mem_found.mpr hi.maps)
      have hle : (u.finished tid now a rest i).due tid ≤ _ := due_le
      rw [show (u.finished tid now a rest i).todo tid = rest from Function.update_self ..] at hle
      have hdue : u.due tid = 2 * rest.length + 1 := by rw [due, ht]; simp only [if_neg hhit]
      rw [hdue]
      exact hle

theorem alone_start {m : Memory} (todo : Int → List Access) (tid : Int)
    (hm : ∀ i, m.pageTable i = .initial) (hf : m.Filled 0) : (start m todo).Alone tid := by
  refine ⟨⟨0, hf⟩, fun i hi => ?_, fun i => ?_, fun i hi => ?_⟩
  · simp [start, hm i, TranslationEntry.initial] at hi
  · simp [start, hm i, TranslationEntry.initial]
  · simp [start, hm i, TranslationEntry.initial] at hi

/-- A thread that expects nothing at the start finds its own writes, whatever frames and file
hold. -/
theorem Alone.run (h : u.Alone tid) (hr : u.Right (fun t _ => t = tid) fun _ _ => none)
    (ha : ∀ a ∈ u.todo tid, Memory.misaligned a.addr a.size = false) (times : List Int) :
    ∃ u', History.run Users.step u (times.map fun now => (tid, now)) = some u' ∧
      (u'.log tid).map Prod.fst ++ u'.todo tid = (u.log tid).map Prod.fst ++ u.todo tid ∧
      u'.due tid ≤ u.due tid - times.length ∧
      u'.Right (fun t _ => t = tid) fun _ _ => none := by
  induction times generalizing u with
  | nil => exact ⟨u, rfl, rfl, le_rfl, hr⟩
  | cons now times ih =>
    obtain ⟨u₁, hs, h₁, hd⟩ := h.step ha now
    have hr₁ := hr.step (fun t p b _ hb => by cases hb) hs fun a rest ht hf =>
      ⟨h.isPrivate, fun o _ hn => absurd rfl hn⟩
    have ha₁ : ∀ a ∈ u₁.todo tid, Memory.misaligned a.addr a.size = false := by
      obtain ⟨-, rfl⟩ | ⟨a, rest, ht, ⟨-, -, rfl⟩ | ⟨i, -, rfl⟩⟩ := step_cases hs
      · exact ha
      · exact ha
      · intro b hb
        simp only [Users.finished, Function.update_self] at hb
        exact ha b (ht ▸ List.mem_cons_of_mem _ hb)
    obtain ⟨u', hu, hl, hd', hr'⟩ := ih h₁ hr₁ ha₁
    refine ⟨u', ?_, hl.trans (step_accesses hs tid), ?_, hr'⟩
    · rw [List.map_cons, History.run, hs]
      exact hu
    · rw [List.length_cons]
      omega

end Users

theorem expected_of_lastWritten {base : Nat → Option Byte} {log : List (Access × Option Word)}
    {p : Nat} {b : Byte} (hp : p < 2147483648) (hb : lastWritten log p = some b) :
    expected base log p = some b := by
  rw [expected, hb]
  exact if_pos hp

theorem lastWritten_lt {log : List (Access × Option Word)}
    (hlog : ∀ x ∈ log, Memory.misaligned x.1.addr x.1.size = false ∧ x.1.addr.toNat < 2147483648)
    {p : Nat} {b : Byte} (hb : lastWritten log p = some b) : p < 2147483648 := by
  induction log using List.reverseRecOn with
  | nil => cases hb
  | append_singleton log x ih =>
    rw [lastWritten_concat] at hb
    cases hx : x.1.byteAt p with
    | none =>
      rw [hx, Option.none_or] at hb
      exact ih (fun y hy => hlog y (List.mem_append_left _ hy)) hb
    | some c =>
      obtain ⟨ha, hlt⟩ := hlog x (List.mem_append_right _ (List.mem_singleton_self x))
      have hpage := Memory.byteAt_page ha (by rw [hx]; exact Option.some_ne_none c)
      rw [Access.vpn] at hpage
      omega

/-- Whatever a single thread accesses below 2^31 and however its pages move: every access is made,
after at most one page fault each, and each byte that it reads is the one that was written there
last. -/
theorem reads_last_written (pageLasttime : Int → Int) (mainMemory : Int → Byte)
    (words : Nat → Word) (disk : BackingFile) (tid : Int) (todo : Int → List Access)
    (htodo : ∀ a ∈ todo tid,
      Memory.misaligned a.addr a.size = false ∧ a.addr.toNat < 2147483648)
    (times : List Int) :
    ∃ u, History.run Users.step (.start (.initial pageLasttime mainMemory words disk) todo)
        (times.map fun now => (tid, now)) = some u ∧
      (u.log tid).map Prod.fst ++ u.todo tid = todo tid ∧
      (2 * (todo tid).length ≤ times.length → u.todo tid = []) ∧
      Consistent lastWritten (u.log tid) := by
  have hm : ∀ i, (Memory.initial pageLasttime mainMemory words disk).pageTable i = .initial :=
    fun _ => rfl
  have hfill := Memory.filled_initial pageLasttime mainMemory words disk
  obtain ⟨u, hu, hl, hd, hr⟩ := (Users.alone_start todo tid hm hfill).run
    (Users.right_start todo hm (fun t v _ o _ b hb => by cases hb) fun t p hn => absurd rfl hn)
    (fun a ha => (htodo a ha).1) times
  have hlog : ∀ x ∈ u.log tid,
      Memory.misaligned x.1.addr x.1.size = false ∧ x.1.addr.toNat < 2147483648 := fun x hx =>
    htodo x.1 (by
      have := List.mem_append_left (u.todo tid) (List.mem_map_of_mem (f := Prod.fst) hx)
      rwa [hl] at this)
  refine ⟨u, hu, hl, fun hlen => ?_, fun before a v hp => ?_⟩
  · have hle : (Users.start (.initial pageLasttime mainMemory words disk) todo).due tid ≤
        2 * (todo tid).length := Users.due_le
    exact Users.due_eq_zero.mp (by omega)
  · refine (hr.results tid (fun _ _ => rfl) before a v hp).mono fun p b hb => ?_
    have hbefore := fun x hx => hlog x (hp.subset (List.mem_append_left _ hx))
    exact expected_of_lastWritten (lastWritten_lt hbefore hb) hb

/-- A word is written and read again. -/
theorem reads_last_written_word :
    ∃ u, History.run Users.step (.start (.initial (fun _ => 0) (fun _ => 0) (fun _ => 0) ⟨0, fun _ => 0⟩)
        fun _ => [.write 4 .word 7, .read 4 .word]) ([1, 2, 3, 4].map fun now => (0, now)) = some u ∧
      (u.log 0).map Prod.fst ++ u.todo 0 = [.write 4 .word 7, .read 4 .word] ∧
      (2 * 2 ≤ 4 → u.todo 0 = []) ∧ Consistent lastWritten (u.log 0) :=
  reads_last_written (fun _ => 0) (fun _ => 0) (fun _ => 0) ⟨0, fun _ => 0⟩ 0
    (fun _ => [.write 4 .word 7, .read 4 .word]) (by decide) [1, 2, 3, 4]

end Nachos
