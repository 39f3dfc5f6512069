import Nachos.Machine.Coherence

/-! What the accesses of a thread return. Each byte of a result is the one that the thread expects
there: the byte that it wrote last, or else what was there before its first access. -/

namespace Nachos
open Lib

/-- The byte that was written last at the virtual address `p`. -/
def lastWritten (log : List (Access × Option Word)) (p : Nat) : Option Byte :=
  log.foldl (fun b x => (x.1.byteAt p).or b) none

theorem lastWritten_concat (log : List (Access × Option Word)) (x : Access × Option Word) (p : Nat) :
    lastWritten (log ++ [x]) p = (x.1.byteAt p).or (lastWritten log p) := by
  rw [lastWritten, List.foldl_append]
  rfl

/-- What a thread expects that started with `base` and has made these accesses. The upper half of
the address space cannot be written back, so nothing is expected where it was written. -/
def expected (base : Nat → Option Byte) (log : List (Access × Option Word)) (p : Nat) :
    Option Byte :=
  match lastWritten log p with
  | none => base p
  | some b => if p < 2147483648 then some b else none

def Sees (X : Nat → Option Byte) (a : Access) (v : Option Word) : Prop :=
  ∃ g : Int → Byte, (∀ (p : Nat) b, X p = some b → g p = b) ∧ v = a.result g a.addr.toNat

/-- Each result in the log is the expected one after the accesses before it. -/
def Consistent (X : List (Access × Option Word) → Nat → Option Byte)
    (log : List (Access × Option Word)) : Prop :=
  ∀ before a v, before ++ [(a, v)] <+: log → Sees (X before) a v

section
variable {X Y : List (Access × Option Word) → Nat → Option Byte}
  {log : List (Access × Option Word)} {base : Nat → Option Byte} {a : Access} {v : Option Word}
  {p : Nat} {b : Byte}

theorem Sees.mono {X Y : Nat → Option Byte} (h : Sees X a v) (hXY : ∀ p b, Y p = some b → X p = some b) :
    Sees Y a v := by
  obtain ⟨g, hg, hv⟩ := h
  exact ⟨g, fun p b hb => hg p b (hXY p b hb), hv⟩

theorem Consistent.nil : Consistent X [] := by
  intro before a v hp
  simp at hp

theorem Consistent.concat (h : Consistent X log) (hv : Sees (X log) a v) :
    Consistent X (log ++ [(a, v)]) := by
  intro before a' v' hp
  obtain he | hp := List.prefix_concat_iff.mp hp
  · obtain ⟨rfl, hx⟩ := List.append_inj' he rfl
    obtain ⟨rfl, rfl⟩ := Prod.mk.inj (List.head_eq_of_cons_eq hx)
    exact hv
  · exact h before a' v' hp

theorem expected_concat (hb : expected base (log ++ [(a, v)]) p = some b) :
    a.byteAt p = some b ∨ a.byteAt p = none ∧ expected base log p = some b := by
  rw [expected, lastWritten_concat] at hb
  cases ha : a.byteAt p with
  | none =>
    rw [ha, Option.none_or] at hb
    exact .inr ⟨rfl, hb⟩
  | some c =>
    rw [ha, Option.some_or] at hb
    simp only at hb
    split at hb
    · exact .inl hb
    · cases hb

theorem expected_high (hp : 2147483648 ≤ p) (hb : expected base log p = some b) :
    base p = some b := by
  rw [expected] at hb
  split at hb
  · exact hb
  · rw [if_neg (by omega)] at hb
    cases hb

end

namespace Memory
variable {m : Memory} {tid : Int} {i : Fin 32} {a : Access}
  {T : Int → Nat → Prop} {Fresh : Int → Nat → Prop} {X : Int → Nat → Option Byte}

theorem value_congr {f g : Int → Byte} {x y : Int} {size : MemSize}
    (h : ∀ k : Nat, k < size.bytes → f (x + k) = g (y + k)) : value f x size = value g y size := by
  have h0 : f x = g y := by simpa using h 0 (by cases size <;> decide)
  cases size with
  | byte => rw [value, value, h0]
  | half => rw [value, value, h0, show f (x + 1) = g (y + 1) from h 1 (by decide)]
  | word =>
    rw [value, value, h0, show f (x + 1) = g (y + 1) from h 1 (by decide),
      show f (x + 2) = g (y + 2) from h 2 (by decide),
      show f (x + 3) = g (y + 3) from h 3 (by decide)]

theorem result_congr {f g : Int → Byte} {x y : Int}
    (h : ∀ k : Nat, k < a.size.bytes → f (x + k) = g (y + k)) : a.result f x = a.result g y := by
  cases a with
  | read addr size => exact congrArg some (value_congr h)
  | write addr size value => rfl

theorem Coherent.sees (h : m.Coherent T Fresh X) (hi : m.HitBy tid a i) (hT : T tid a.vpn) :
    Sees (X tid) a (a.result m.mainMemory (m.physical i a.addr)) := by
  have hpage := bytes_le_page hi.aligned
  -- outside of the access, the memory may be anything
  let g : Int → Byte := fun q =>
    if a.addr.toNat ≤ q ∧ q < a.addr.toNat + a.size.bytes then
      m.mainMemory (m.physical i a.addr + (q - a.addr.toNat))
    else (X tid q.toNat).getD 0
  refine ⟨g, fun p b hb => ?_, result_congr fun k hk => ?_⟩
  · by_cases hp : a.addr.toNat ≤ (p : Int) ∧ (p : Int) < a.addr.toNat + a.size.bytes
    · have ho : p - a.vpn * 128 < 128 := by
        rw [Access.vpn]
        omega
      have hq : a.vpn * 128 + (p - a.vpn * 128) = p := by
        rw [Access.vpn]
        omega
      have hr := h.resident tid a.vpn i hT hi.maps hi.nonneg (p - a.vpn * 128) ho b
        (by rwa [hq])
      have he : m.physical i a.addr + ((p : Int) - a.addr.toNat) =
          (m.pageTable i).physicalPage * 128 + (p - a.vpn * 128 : Nat) := by
        rw [physical, Access.vpn]
        omega
      simp only [g, if_pos hp, he, hr]
    · simp only [g, if_neg hp, Int.toNat_natCast, hb, Option.getD_some]
  · have hq : a.addr.toNat ≤ (a.addr.toNat + k : Int) ∧
        (a.addr.toNat + k : Int) < a.addr.toNat + a.size.bytes := by omega
    simp only [g, if_pos hq, add_sub_cancel_left]

end Memory

namespace Users
variable {u u' : Users} {tid now : Int} {e : Int × Int}
  {T : Int → Nat → Prop} {base : Int → Nat → Option Byte}

structure Right (T : Int → Nat → Prop) (base : Int → Nat → Option Byte) (u : Users) : Prop where
  coherent : u.memory.Coherent T (fun t p => base t p ≠ none) fun t => expected (base t) (u.log t)
  results : ∀ t, (∀ x ∈ u.log t, T t x.1.vpn) → Consistent (expected (base t)) (u.log t)
  aligned : ∀ t, ∀ x ∈ u.log t, Memory.misaligned x.1.addr x.1.size = false

theorem right_start {m : Memory} (todo : Int → List Access)
    (hm : ∀ i, m.pageTable i = .initial)
    (hback : ∀ t v, T t v → ∀ o < 128, ∀ b, base t (v * 128 + o) = some b →
      Memory.Backs m.disk (base t (v * 128 + o) ≠ none) (v * 128 + o) b)
    (hstale : ∀ t p, base t p ≠ none → m.disk.length ≤ p → m.disk.byte p = 0) :
    (start m todo).Right T base := by
  have hv : ∀ i, (m.pageTable i).valid ≠ true := fun i => by simp [hm i, TranslationEntry.initial]
  have hu : ∀ i, (m.pageTable i).use ≠ true := fun i => by simp [hm i, TranslationEntry.initial]
  refine ⟨⟨⟨fun i hi => absurd hi (hu i), fun i hi => absurd hi (hv i),
    fun i j hi => absurd hi (hv i), fun i hi => absurd hi (hv i)⟩, fun i j hi => absurd hi (hv i),
    fun t v i _ hi => absurd (Memory.maps_iff.mp hi).2.1 (hv i), fun t v hT _ => hback t v hT,
    hstale⟩, fun t _ => Consistent.nil, fun t x hx => absurd hx List.not_mem_nil⟩

/-- If the next access of the thread is a page fault, then nobody's page in the file is
overwritten, and the frame has zeros where the file has ended. -/
def Harmless (T : Int → Nat → Prop) (base : Int → Nat → Option Byte) (u : Users) :
    Int × Int → Prop
  | (tid, _) => ∀ a rest, u.todo tid = a :: rest → u.memory.Faults tid a →
      u.memory.Private T ∧ u.memory.Clean (fun p => base tid p ≠ none) a

theorem Right.step (h : u.Right T base)
    (hbase : ∀ t p b, 2147483648 ≤ p → base t p = some b → b = 0) (hs : u.step e = some u')
    (he : u.Harmless T base e) : u'.Right T base := by
  obtain ⟨tid, now⟩ := e
  obtain ⟨-, rfl⟩ | ⟨a, rest, ht, ⟨-, hf, rfl⟩ | ⟨i, hi, rfl⟩⟩ := step_cases hs
  · exact h
  · obtain ⟨hp, hc⟩ := he a rest ht hf
    refine ⟨h.coherent.serviced hf hp hc fun t p b hhigh hb => ?_, h.results, h.aligned⟩
    have hb := expected_high hhigh hb
    exact ⟨hbase t p b hhigh hb, by rw [hb]; exact Option.some_ne_none b⟩
  · refine ⟨h.coherent.performed hi fun t p b hb => ?_, fun t hT => ?_, fun t x hx => ?_⟩
    · by_cases htt : t = tid
      · subst htt
        simp only [finished, Function.update_self] at hb
        obtain hw | ⟨hw, hb⟩ := expected_concat hb
        · exact .inl ⟨rfl, hw⟩
        · exact .inr ⟨fun hn => hn.2 hw, hb⟩
      · simp only [finished, Function.update_of_ne htt] at hb
        exact .inr ⟨fun hn => htt hn.1, hb⟩
    · by_cases htt : t = tid
      · subst htt
        simp only [finished, Function.update_self] at hT ⊢
        refine (h.results t fun x hx => hT x (List.mem_append_left _ hx)).concat ?_
        exact h.coherent.sees hi (hT _ (List.mem_append_right _ (List.mem_singleton_self _)))
      · simp only [finished, Function.update_of_ne htt] at hT ⊢
        exact h.results t hT
    · by_cases htt : t = tid
      · subst htt
        simp only [finished, Function.update_self] at hx
        obtain hx | hx := List.mem_append.mp hx
        · exact h.aligned t x hx
        · rw [List.mem_singleton.mp hx]
          exact hi.aligned
      · simp only [finished, Function.update_of_ne htt] at hx
        exact h.aligned t x hx

theorem step_accesses (hs : u.step e = some u') (t : Int) :
    (u'.log t).map Prod.fst ++ u'.todo t = (u.log t).map Prod.fst ++ u.todo t := by
  obtain ⟨tid, now⟩ := e
  obtain ⟨-, rfl⟩ | ⟨a, rest, ht, ⟨-, -, rfl⟩ | ⟨i, -, rfl⟩⟩ := step_cases hs
  · rfl
  · rfl
  · by_cases htt : t = tid
    · subst htt
      simp [finished, ht]
    · simp [finished, Function.update_of_ne htt]

end Users
end Nachos
