import Nachos.Machine.Reads

/-! The virtual memory of a thread as if all of its pages were present. The pages that are present
show their part of it, and an access that finds its page has the same outcome on both. -/

namespace Nachos
open Lib

/-- The pages of a thread: which may not be written, which have a frame that the machine does not
have, and the bytes. -/
structure VirtualMemory where
  readOnly : Nat → Bool
  lost : Nat → Bool
  byte : Nat → Byte

namespace VirtualMemory

def access (V : VirtualMemory) (a : Access) : Except ExceptionType (Option Word) × VirtualMemory :=
  if Memory.misaligned a.addr a.size then (.error .addressError, V)
  else if V.readOnly a.vpn && a.writing then (.error .readOnly, V)
  else if V.lost a.vpn then (.error .busError, V)
  else
    (.ok (a.result (fun p => V.byte p.toNat) a.addr.toNat),
      { V with byte := fun p => (a.byteAt p).getD (V.byte p) })

theorem access_of_not_writing {V : VirtualMemory} {a : Access} (h : a.writing = false) :
    (V.access a).2 = V := by
  cases a with
  | read addr size =>
    rw [access]
    split_ifs <;> rfl
  | write addr size value => cases h

theorem access_ne_pageFault {V : VirtualMemory} {a : Access} : (V.access a).1 ≠ .error .pageFault := by
  rw [access]
  split_ifs <;> exact fun h => by cases h

end VirtualMemory

namespace Memory
variable {m : Memory} {tid now : Int} {V : VirtualMemory} {a : Access} {i : Fin 32} {v : Nat}

/-- The entry that `Translate` uses for a page of the thread. -/
def entryOf (m : Memory) (tid : Int) (v : Nat) : Option (Fin 32) := (m.found tid v).getLast?

/-- The pages of the thread that are present are as in its virtual memory, in frames of their
own. -/
structure Shows (m : Memory) (tid : Int) (V : VirtualMemory) : Prop where
  readOnly : ∀ v i, m.entryOf tid v = some i → (m.pageTable i).readOnly = V.readOnly v
  lost : ∀ v i, m.entryOf tid v = some i →
    (V.lost v = false ↔ 0 ≤ (m.pageTable i).physicalPage ∧ (m.pageTable i).physicalPage < 32)
  byte : ∀ v i, m.entryOf tid v = some i → V.lost v = false → ∀ o < 128,
    m.mainMemory ((m.pageTable i).physicalPage * 128 + (o : Nat)) = V.byte (v * 128 + o)
  distinct : ∀ v w i j, m.entryOf tid v = some i → m.entryOf tid w = some j → V.lost v = false →
    (m.pageTable i).physicalPage = (m.pageTable j).physicalPage → v = w

theorem faults_iff_entryOf : m.Faults tid a ↔ m.entryOf tid a.vpn = none := by
  rw [entryOf, List.getLast?_eq_none_iff, found_eq_nil]
  rfl

@[simp] theorem entryOf_touch (found : List (Fin 32)) :
    (m.touch now found).entryOf tid v = m.entryOf tid v := rfl

@[simp] theorem entryOf_performed (t : Int) :
    (m.performed tid now a i).entryOf t v = m.entryOf t v := by
  have hmaps : (m.performed tid now a i).maps t v = m.maps t v :=
    funext fun j => maps_performed t v j
  rw [entryOf, found, hmaps]
  rfl

theorem access_misaligned (h : misaligned a.addr a.size = true) :
    m.access tid now a = (.error .addressError, m) := by
  rw [access_eq, translate, if_pos h]
  rfl

theorem access_refused {e : ExceptionType} (h : misaligned a.addr a.size = false)
    (hi : m.entryOf tid a.vpn = some i)
    (he : ∀ m' : Memory, m'.pageTable = m.pageTable →
      m'.through i (a.addr.toNat % 128) a.writing = (.error e, m')) :
    m.access tid now a = (.error e, m.touch now (m.found tid a.vpn)) := by
  have hl : (m.found tid (a.addr.toNat / 128)).getLast? = some i := hi
  rw [access_eq, translate, if_neg (by simp [h]), lookup_eq, hl]
  exact congrArg a.complete (he (m.touch now (m.found tid a.vpn)) rfl)

theorem HitBy.access (h : m.HitBy tid a i) : m.access tid now a =
    (.ok (a.result m.mainMemory (m.physical i a.addr)), m.performed tid now a i) := by
  rw [access_eq, Hits.translate h]
  rfl

namespace Shows

theorem touch (h : m.Shows tid V) (found : List (Fin 32)) : (m.touch now found).Shows tid V :=
  ⟨h.readOnly, h.lost, h.byte, h.distinct⟩

theorem missed (h : m.Shows tid V) : Shows { m with pagemiss := m.pagemiss + 1 } tid V :=
  ⟨h.readOnly, h.lost, h.byte, h.distinct⟩

theorem result_eq (h : m.Shows tid V) (ha : misaligned a.addr a.size = false)
    (hi : m.entryOf tid a.vpn = some i) (hv : V.lost a.vpn = false) :
    a.result m.mainMemory (m.physical i a.addr) =
      a.result (fun p => V.byte p.toNat) a.addr.toNat := by
  have hpage := bytes_le_page ha
  refine result_congr fun k hk => ?_
  have hp : m.physical i a.addr + k =
      (m.pageTable i).physicalPage * 128 + (a.addr.toNat % 128 + k : Nat) := by
    rw [physical]
    omega
  have hq : a.vpn * 128 + (a.addr.toNat % 128 + k) = ((a.addr.toNat : Int) + k).toNat := by
    rw [Access.vpn]
    omega
  rw [hp, h.byte _ i hi hv _ (by omega), hq]

theorem performed (h : m.Shows tid V) (ha : misaligned a.addr a.size = false)
    (hi : m.entryOf tid a.vpn = some i) (hv : V.lost a.vpn = false) :
    (m.performed tid now a i).Shows tid
      { V with byte := fun p => (a.byteAt p).getD (V.byte p) } := by
  have hsame := @performed_entry m tid now i a
  refine ⟨fun v j hj => ?_, fun v j hj => ?_, fun v j hj hl o ho => ?_, fun v w j k hj hk => ?_⟩ <;>
    rw [entryOf_performed] at hj
  · rw [(hsame j).2.2.2.2]
    exact h.readOnly v j hj
  · rw [(hsame j).2.1]
    exact h.lost v j hj
  · rw [(hsame j).2.1, performed_mainMemory, physical]
    by_cases hji : (m.pageTable j).physicalPage = (m.pageTable i).physicalPage
    · -- the frame of the access
      obtain rfl := h.distinct v a.vpn j i hj hi hl hji
      rw [hji, store_eq, h.byte _ i hi hv o ho]
    · have hne : v ≠ a.vpn := fun e => by
        rw [e, hi] at hj
        exact hji (Option.some.inj hj ▸ rfl)
      have hb : a.byteAt (v * 128 + o) = none := by
        by_contra hb
        have := byteAt_page ha hb
        omega
      simp only [store_of_ne ha hji ho, h.byte v j hj hl o ho, hb, Option.getD_none]
  · rw [entryOf_performed] at hk
    rw [(hsame j).2.1, (hsame k).2.1]
    exact h.distinct v w j k hj hk

/-- An access finds no page, or has the outcome that it has when all pages are present. -/
theorem access (h : m.Shows tid V) (now : Int) (a : Access) :
    (m.Faults tid a ∧
      m.access tid now a = (.error .pageFault, { m with pagemiss := m.pagemiss + 1 })) ∨
    ∃ m', m.access tid now a = ((V.access a).1, m') ∧ m'.Shows tid (V.access a).2 ∧
      ∀ v, m'.entryOf tid v = m.entryOf tid v := by
  by_cases ha : misaligned a.addr a.size = true
  · rw [VirtualMemory.access, if_pos ha]
    exact .inr ⟨m, access_misaligned ha, h, fun _ => rfl⟩
  have ha : misaligned a.addr a.size = false := by simpa using ha
  cases hi : m.entryOf tid a.vpn with
  | none =>
    have hf := faults_iff_entryOf.mpr hi
    refine .inl ⟨hf, ?_⟩
    rw [access_eq, translate_miss ha hf]
    rfl
  | some i =>
    have hlost := h.lost _ i hi
    refine .inr ?_
    rw [VirtualMemory.access, if_neg (by simp [ha]), ← h.readOnly _ i hi]
    by_cases hw : ((m.pageTable i).readOnly && a.writing) = true
    · rw [if_pos hw]
      refine ⟨_, access_refused ha hi fun m' hm' => ?_, h.touch _, fun v => rfl⟩
      rw [through, hm', if_pos hw]
    rw [if_neg hw]
    by_cases hv : V.lost a.vpn = true
    · rw [if_pos hv]
      refine ⟨_, access_refused ha hi fun m' hm' => ?_, h.touch _, fun v => rfl⟩
      rw [through, hm', if_neg hw, if_neg (by simp [← hlost, hv])]
    · have hv' : V.lost a.vpn = false := by simpa using hv
      have hf := hlost.mp hv'
      rw [if_neg hv, ← h.result_eq ha hi hv']
      have hit : m.HitBy tid a i := ⟨ha, hi, by simpa using hw, hf.1, hf.2⟩
      exact ⟨_, hit.access, h.performed ha hi hv', fun v => entryOf_performed tid⟩

end Shows
end Memory
end Nachos
