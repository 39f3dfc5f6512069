import Nachos.Machine.Alu

/-! The trap on overflow of ADD, ADDI and SUB. The sign tests of the three instructions are exact,
but the delayed load that ends every instruction, and every exception, may go to the register that
the instruction was about. -/

namespace Nachos
open Lib

namespace Registers
theorem delayedLoad_gp (r : Registers) (g n : Fin 32) (v : Word) :
    (r.delayedLoad n v).gp g =
      if g = 0 then 0 else if r.load = g then r.loadValue else r.gp g := by
  simp only [delayedLoad, Function.update_apply, eq_comm]

end Registers

/-- The instruction traps if and only if `v` does not fit into a word. If it traps, the destination
`d` and the program counters are as before, and otherwise `d` holds `v`. -/
structure Cpu.TrapsExactly (cpu : Cpu) (tid now : Int) (m : Memory) (d : Fin 32) (v : Int) :
    Prop where
  traps : (∃ cpu', (cpu.step tid now m).1 = .raise .overflow cpu') ↔ ¬ Mips.InWord v
  unchanged : ∀ cpu', (cpu.step tid now m).1 = .raise .overflow cpu' →
    cpu'.gp d = cpu.gp d ∧ cpu'.pc = cpu.pc ∧ cpu'.nextPC = cpu.nextPC
  result : Mips.InWord v → ∃ cpu', (cpu.step tid now m).1 = .done cpu' ∧ (cpu'.gp d).toInt = v

/-- What the delayed load brings to `d`, if it goes there, is what belongs there: the result, or
after a trap the old value. R0 can only receive 0. -/
def Cpu.LoadAgrees (cpu : Cpu) (d : Fin 32) (v : Int) : Prop :=
  if Mips.InWord v then if d = 0 then v = 0 else cpu.load = d → cpu.loadValue.toInt = v
  else d ≠ 0 → cpu.load = d → cpu.loadValue = cpu.gp d

instance (cpu : Cpu) (d : Fin 32) (v : Int) : Decidable (cpu.LoadAgrees d v) :=
  inferInstanceAs (Decidable (if Mips.InWord v then _ else _))

section
variable {cpu : Cpu} {tid now : Int} {m : Memory} {d : Fin 32} {v : Int}

theorem Cpu.trapsExactly_of_set (hv : Mips.InWord v)
    (hs : (cpu.step tid now m).1 =
      cpu.complete (.next (cpu.set d (BitVec.ofInt 32 v)) 0 0 (cpu.nextPC + 4))) :
    cpu.TrapsExactly tid now m d v ↔
      if d = 0 then v = 0 else cpu.load = d → cpu.loadValue.toInt = v := by
  have hd : ((cpu.set d (BitVec.ofInt 32 v)).delayedLoad 0 0).gp d =
      if d = 0 then 0 else if cpu.load = d then cpu.loadValue else BitVec.ofInt 32 v := by
    rw [Registers.delayedLoad_gp]
    simp only [Registers.set, Function.update_self]
  have hdone : ∀ cpu', (cpu.step tid now m).1 ≠ .raise .overflow cpu' := by
    intro cpu' h
    rw [hs] at h
    cases h
  have hval : (((cpu.set d (BitVec.ofInt 32 v)).delayedLoad 0 0).gp d).toInt = v ↔
      if d = 0 then v = 0 else cpu.load = d → cpu.loadValue.toInt = v := by
    rw [hd]
    by_cases h0 : d = 0
    · rw [if_pos h0, if_pos h0]
      exact eq_comm
    · rw [if_neg h0, if_neg h0]
      by_cases hl : cpu.load = d
      · rw [if_pos hl]
        exact ⟨fun h _ => h, fun h => h hl⟩
      · rw [if_neg hl]
        exact iff_of_true hv.toInt_ofInt fun h => absurd h hl
  rw [← hval]
  constructor
  · intro h
    obtain ⟨cpu', hc, hv'⟩ := h.result hv
    rw [hs] at hc
    cases hc
    exact hv'
  · intro h
    refine ⟨iff_of_false ?_ (not_not.mpr hv), fun cpu' hc => absurd hc (hdone cpu'),
      fun _ => ⟨_, hs, h⟩⟩
    rintro ⟨cpu', hc⟩
    exact hdone cpu' hc

theorem Cpu.trapsExactly_of_raise (hv : ¬ Mips.InWord v)
    (hs : (cpu.step tid now m).1 = cpu.complete (.raise .overflow 0)) :
    cpu.TrapsExactly tid now m d v ↔ (d ≠ 0 → cpu.load = d → cpu.loadValue = cpu.gp d) := by
  have hd : (cpu.raise 0).gp d = cpu.gp d ↔ (d ≠ 0 → cpu.load = d → cpu.loadValue = cpu.gp d) := by
    rw [Registers.raise, Registers.delayedLoad_gp]
    by_cases h0 : d = 0
    · rw [if_pos h0, h0, cpu.zero]
      exact iff_of_true rfl fun h => absurd rfl h
    · rw [if_neg h0]
      by_cases hl : cpu.load = d
      · rw [if_pos hl]
        exact ⟨fun h _ _ => h, fun h => h h0 hl⟩
      · rw [if_neg hl]
        exact iff_of_true rfl fun _ h => absurd h hl
  rw [← hd]
  constructor
  · intro h
    exact (h.unchanged _ hs).1
  · intro h
    refine ⟨iff_of_true ⟨_, hs⟩ hv, fun cpu' hc => ?_, fun h => absurd h hv⟩
    rw [hs] at hc
    cases hc
    exact ⟨h, rfl, rfl⟩

end

/-- Whatever the registers hold: ADD, ADDI and SUB trap exactly, keep the registers on a trap and
leave the mathematical result otherwise, if and only if the delayed load agrees. -/
theorem trapsExactly_iff (cpu : Cpu) (tid now : Int) (m : Memory) (w : Word) (k : Mips.Trapping)
    (hw : (m.readMem tid now cpu.pc .word).1 = .ok w) (hk : k.alu.Encodes w) :
    cpu.TrapsExactly tid now m (k.dest w) (k.value w cpu.gp) ↔
      cpu.LoadAgrees (k.dest w) (k.value w cpu.gp) := by
  have he := cpu.execute_trapping k hk
  unfold Cpu.LoadAgrees
  by_cases hv : Mips.InWord (k.value w cpu.gp)
  · rw [if_pos hv] at he ⊢
    exact Cpu.trapsExactly_of_set hv (Cpu.step_ret hw he)
  · rw [if_neg hv] at he ⊢
    exact Cpu.trapsExactly_of_raise hv (Cpu.step_ret hw he)

/-- R2 is added to itself: 1 and 1 give 2, and 2^30 and 2^30 trap. -/
theorem trapsExactly_double :
    (Cpu.ofTwo 1).TrapsExactly 0 0 (.holding 0x00421820) 3 2 ∧
    (Cpu.ofTwo 0x40000000).TrapsExactly 0 0 (.holding 0x00421820) 3 2147483648 :=
  ⟨(trapsExactly_iff (Cpu.ofTwo 1) 0 0 (.holding 0x00421820) 0x00421820 .add (by decide +kernel)
      ⟨by decide, by decide⟩).mpr (by decide +kernel),
    (trapsExactly_iff (Cpu.ofTwo 0x40000000) 0 0 (.holding 0x00421820) 0x00421820 .add
      (by decide +kernel) ⟨by decide, by decide⟩).mpr (by decide +kernel)⟩

def Cpu.loadingThree : Cpu := { Cpu.ofTwo 1 with load := 3, loadValue := 7 }

/-- R3 should get 1 + 1. It gets 7. -/
theorem not_trapsExactly_loading :
    (Mips.Trapping.add).alu.Encodes 0x00421820 ∧
    ¬ Cpu.loadingThree.TrapsExactly 0 0 (.holding 0x00421820) 3 2 := by
  have hk : (Mips.Trapping.add).alu.Encodes 0x00421820 := ⟨by decide, by decide⟩
  have hw : ((Memory.holding 0x00421820).readMem 0 0 0 .word).1 = .ok 0x00421820 := by
    decide +kernel
  have hv : Mips.InWord 2 := by decide
  have he : Cpu.loadingThree.execute (Instruction.decode 0x00421820) =
      (Cpu.loadingThree.set 3 (BitVec.ofInt 32 2)).advance (Cpu.loadingThree.nextPC + 4) := by
    rw [Cpu.loadingThree.execute_trapping .add hk]
    exact if_pos hv
  refine ⟨hk, fun h => ?_⟩
  have hload := (Cpu.trapsExactly_of_set hv (Cpu.step_ret hw he)).mp h
  exact absurd hload (by decide)

end Nachos
