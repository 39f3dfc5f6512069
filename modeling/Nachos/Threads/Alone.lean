import Nachos.Threads.Action

/-! What the synchronization routines do when their thread is left alone: no time slice ends, and
only the given interrupt handlers are called. -/

namespace Nachos.Threads
open Lib Program Platform

structure Running (t : Thread) (m : Machine) : Prop where
  currentThread : m.currentThread = t
  asleep : m.asleep = false
  level : m.level = .on

variable {t : Thread} {m m' m₁ : Machine} {s : SemId} {l : LockId} {is : List Irq}
  {Q : Unit → Machine → Prop}

theorem Running.may {o : Op} {r : ops.Res o} {Q : ops.Res o → Machine → Prop} (h : Running t m)
    (he : m.execute ⟨[], false, 0⟩ o = some (.done r m')) (hQ : Q r m') :
    platform.May t (perform (S := ops) o) Q m :=
  ⟨_, r, m', exec_of_execute h.currentThread h.asleep he, hQ⟩

theorem Running.may_bind {α : Type} {o : Op} {r : ops.Res o} {f : ops.Res o → Prog α}
    {Q : α → Machine → Prop} (h : Running t m)
    (he : m.execute ⟨[], false, 0⟩ o = some (.done r m')) (hk : platform.May t (f r) Q m') :
    platform.May t (perform (S := ops) o >>= f) Q m :=
  ⟨_, r, m', exec_of_execute h.currentThread h.asleep he, hk⟩

theorem setLevel_off {x : Choice} (hl : m.level = .on) :
    m.setLevel .off x = some (.done .on { m with level := .off }) := by
  simp [Machine.setLevel, hl]

theorem setLevel_on (hl : m.level = .off) (hi : m.handle is = some m₁) :
    m.setLevel .on ⟨is, false, 0⟩ = some (.done .off { m₁ with level := .on }) := by
  simp [Machine.setLevel, hl, hi]

theorem Running.may_atomic {o : Op} {r : ops.Res o} (is : List Irq) (h : Running t m)
    (he : { m with level := .off }.execute ⟨[], false, 0⟩ o = some (.done r m'))
    (ha : m'.asleep = false) (ht : m'.currentThread = t) (hl : m'.level = .off)
    (hi : m'.handle is = some m₁) (hQ : Q () { m₁ with level := .on }) :
    platform.May t (do
      let oldLevel ← setLevel .off
      let _ ← perform (S := ops) o
      let _ ← setLevel oldLevel) Q m := by
  refine ⟨⟨[], false, 0⟩, .on, { m with level := .off },
    exec_of_execute h.currentThread h.asleep (setLevel_off h.level), ?_⟩
  refine ⟨⟨[], false, 0⟩, r, m', exec_of_execute h.currentThread h.asleep he, ?_⟩
  exact ⟨⟨is, false, 0⟩, .off, { m₁ with level := .on },
    exec_of_execute ht ha (setLevel_on hl hi), hQ⟩

theorem Running.may_p (h : Running t m) (hv : (m.semaphore s).value ≠ 0)
    (hQ : Q () (m.setSched (m.toSched.down s))) : platform.May t (Semaphore.p s) Q m := by
  have htake : { m with level := .off }.execute ⟨[], false, 0⟩ (.takeValue s) =
      some (.done () ({ m with level := .off }.setSched (m.toSched.down s))) := by
    simp [Machine.execute, hv]
  have hm : { { m with level := .off }.setSched (m.toSched.down s) with level := .on } =
      m.setSched (m.toSched.down s) := by
    rw [← h.level]
    rfl
  exact h.may_atomic [] htake h.asleep h.currentThread rfl rfl (hm ▸ hQ)

theorem Running.may_v (h : Running t m)
    (hi : ({ m with level := .off }.setSched (m.toSched.up s (some t))).handle is = some m₁)
    (hQ : Q () { m₁ with level := .on }) : platform.May t (Semaphore.v s) Q m := by
  have ht := h.currentThread
  subst ht
  exact h.may_atomic (o := .giveValue s) (r := ()) is rfl
    ((Machine.up_asleep ..).trans h.asleep) (Machine.up_currentThread ..) rfl hi hQ

theorem Running.may_acquire (h : Running t m) (hv : (m.semaphore (.lock l)).value ≠ 0)
    (hQ : Q () ({ m with threadHoldTheLock := Function.update m.threadHoldTheLock l (some t)
      }.setSched (m.toSched.down (.lock l)))) :
    platform.May t (Lock.acquire l) Q m := by
  have h' : Running t (m.setSched (m.toSched.down (.lock l))) :=
    ⟨h.currentThread, h.asleep, h.level⟩
  refine May.bind (h.may_p (Q := fun _ m' => m' = m.setSched (m.toSched.down (.lock l))) hv rfl)
    fun _ m' hm => ?_
  subst hm
  refine h'.may_bind rfl (h'.may rfl ?_)
  have ht : (m.setSched (m.toSched.down (.lock l))).currentThread = t := h.currentThread
  rwa [ht]

theorem Running.may_release (h : Running t m) (hh : m.threadHoldTheLock l = some t)
    (hi : ({ m with level := .off }.setSched (m.toSched.up (.lock l) (some t))).handle is =
      some m₁)
    (hQ : Q () { m₁ with
      level := .on
      threadHoldTheLock := Function.update m₁.threadHoldTheLock l none }) :
    platform.May t (Lock.release l) Q m := by
  have hheld : platform.May t (Lock.isHeldByCurrentThread l) (fun b m' => b = true ∧ m' = m) m := by
    refine h.may_bind rfl (h.may_bind rfl ⟨?_, rfl⟩)
    rw [hh, h.currentThread]
    exact beq_self_eq_true _
  refine hheld.bind fun b m' hb => ?_
  obtain ⟨rfl, rfl⟩ := hb
  have h₁ : Running t { m₁ with level := .on } :=
    ⟨(Machine.handle_currentThread hi).trans ((Machine.up_currentThread ..).trans h.currentThread),
      (Machine.handle_asleep hi).trans ((Machine.up_asleep ..).trans h.asleep), rfl⟩
  refine May.bind (h.may_v (Q := fun _ m' => m' = { m₁ with level := .on }) hi rfl)
    fun _ m' hm => ?_
  subst hm
  exact h₁.may rfl hQ

end Nachos.Threads
