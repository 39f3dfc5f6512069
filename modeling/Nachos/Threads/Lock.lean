import Nachos.Threads.Frame

/-! Mutual exclusion of `Lock`, whatever calls the threads make. `Release` decides by
`threadHoldTheLock`, which is written after `P` has returned and after `V` has returned. A thread
that finds itself there has the permit, or is itself between its `V` and its store of `NULL`. -/

namespace Nachos.Threads
open Lib Program Platform

/-- Thread `t` has done the `P` of the lock, and no `V` since. -/
def holds (l : LockId) (t : Thread) : List Event → Bool :=
  since (fun e => e = .down (.lock l) t) (fun e => e = .up (.lock l) (some t))

def returnsHolding (l : LockId) (t : Thread) : Event → Bool
  | .leave u (.acquire n) | .leave u (.wait _ n) => u = t ∧ l = .user n
  | _ => false

def callsRelease (l : LockId) (t : Thread) : Event → Bool
  | .enter u (.release n) | .enter u (.wait _ n) => u = t ∧ l = .user n
  | _ => false

/-- Thread `t` is between a returned `Acquire` and its next call of `Release`. `Condition::Wait`
calls `Release`, and then `Acquire`. -/
def between (l : LockId) (t : Thread) : List Event → Bool :=
  since (returnsHolding l t) (callsRelease l t)

section positions
variable {l : LockId} {t u : Thread} {T : Obj → Prop} {k : Sched} {m m' : Machine} {c : Call}
  {h : List Event}

theorem holds_down (u : Thread) : holds l u ((k.down (.lock l)).trace) =
    (u == k.currentThread || holds l u k.trace) := by
  by_cases hu : u = k.currentThread
  · subst hu
    simp [holds, Sched.down, since]
  · simp [holds, Sched.down, since, hu, Ne.symm hu]

theorem holds_up (u : Thread) : holds l u ((k.up (.lock l) (some t)).trace) =
    (u != t && holds l u k.trace) := by
  rw [holds, since_up (by simp) (by simp)]
  by_cases hu : u = t
  · subst hu
    simp [since]
  · simp [since, hu, Ne.symm hu]

theorem holds_of_frame (hf : Frame T m m') (hs : ¬ T (.semaphore (.lock l))) (t : Thread) :
    holds l t m'.trace = holds l t m.trace := by
  refine hf.since_eq fun e he => ⟨_, ?_, hs⟩
  rcases he with he | he <;> rw [of_decide_eq_true he] <;> rfl

theorem holds_exec {o : Op} {x : Choice} {e : Effect (ops.Res o) Machine}
    (he : platform.exec t o x m = some e)
    (hu : u ≠ t) : holds l u e.state.trace = holds l u m.trace := by
  by_cases hs : o.touches (.semaphore (.lock l))
  · obtain ⟨ht, -, he⟩ := exec_eq_some he
    cases o <;> simp only [Op.touches, reduceCtorEq, Obj.semaphore.injEq] at hs <;> subst hs
    · simp only [Machine.execute] at he
      split at he
      · split at he
        · cases he
          exact since_cons_of_not rfl rfl
        · cases he
      · cases he
        refine (holds_down u).trans ?_
        simp [ht, hu]
    · cases he
      refine (holds_up u).trans ?_
      simp [ht, hu]
  · exact holds_of_frame (exec_within (.inr fun _ hx => hx) he) (by simp [Obj.Shared, hs]) u

theorem between_of_frame (hf : Frame T m m') (hs : ¬ T .calls) (t : Thread) :
    between l t m'.trace = between l t m.trace := by
  refine hf.since_eq fun e he => ⟨.calls, ?_, hs⟩
  rcases he with he | he <;> cases e <;> first | rfl | cases he

theorem between_enter_of_ne (hu : u ≠ t) : between l u (.enter t c :: h) = between l u h := by
  refine since_cons_of_not rfl ?_
  cases c <;> simp [callsRelease, Ne.symm hu]

theorem between_leave_of_ne (hu : u ≠ t) : between l u (.leave t c :: h) = between l u h := by
  refine since_cons_of_not ?_ rfl
  cases c <;> simp [returnsHolding, Ne.symm hu]

theorem between_enter (hc : callsRelease l t (.enter t c) = false) (u : Thread) :
    between l u (.enter t c :: h) = between l u h := by
  rcases eq_or_ne u t with rfl | hu
  · exact since_cons_of_not rfl hc
  · exact between_enter_of_ne hu

theorem between_leave (hc : returnsHolding l t (.leave t c) = false) (u : Thread) :
    between l u (.leave t c :: h) = between l u h := by
  rcases eq_or_ne u t with rfl | hu
  · exact since_cons_of_not hc rfl
  · exact between_leave_of_ne hu

theorem calls_of_not_touches (hc : ¬ c.touches (.holder l)) :
    callsRelease l u (.enter t c) = false ∧ returnsHolding l u (.leave t c) = false := by
  cases c with
  | acquire n | release n | wait b n =>
    have hl : ¬ l = .user n := by simpa [Call.touches] using hc
    simp [callsRelease, returnsHolding, hl]
  | _ => exact ⟨rfl, rfl⟩

end positions

structure Exclusive (l : LockId) (m : Machine) : Prop where
  value : (m.semaphore (.lock l)).value = 0 ∨ (m.semaphore (.lock l)).value = 1
  free : (m.semaphore (.lock l)).value = 1 → ∀ t, holds l t m.trace = false
  unique : ∀ t u, holds l t m.trace = true → holds l u m.trace = true → t = u
  between : ∀ t, between l t m.trace = true → holds l t m.trace = true

def lockObjs (l : LockId) (x : Obj) : Prop := x = .semaphore (.lock l) ∨ x = .holder l ∨ x = .calls

@[simp] theorem apart_lockObjs {T : Obj → Prop} {l : LockId} :
    Apart T (lockObjs l) ↔ ¬ T (.semaphore (.lock l)) ∧ ¬ T (.holder l) ∧ ¬ T .calls := by
  simp [Apart, lockObjs]

theorem apart_shared_lockObjs {l : LockId} : Apart Obj.Shared (lockObjs l) := by
  simp [Obj.Shared]

inductive LockPos where
  | out
  /-- `P` has taken the permit. -/
  | got
  /-- `Acquire` has returned. -/
  | inside
  /-- `isHeldByCurrentThread` has returned true. -/
  | checked
  /-- `V` has given the permit back. -/
  | freed

structure LockInv (l : LockId) (G : Thread → LockPos) (m : Machine) :
    Prop extends Exclusive l m where
  got : ∀ t, G t = .got → holds l t m.trace = true
  inside : ∀ t, G t = .inside → holds l t m.trace = true
  checked : ∀ t, G t = .checked → holds l t m.trace = true
  holder : ∀ t, m.threadHoldTheLock l = some t → holds l t m.trace = true ∨ G t = .freed
  position : ∀ t, Threads.between l t m.trace = true → G t = .inside

namespace LockInv
variable {l : LockId} {G : Thread → LockPos} {m m' : Machine} {t : Thread}

theorem congr (h : LockInv l G m)
    (hv : (m'.semaphore (.lock l)).value = (m.semaphore (.lock l)).value)
    (hl : m'.threadHoldTheLock l = m.threadHoldTheLock l)
    (hh : ∀ t, holds l t m'.trace = holds l t m.trace)
    (hb : ∀ t, Threads.between l t m'.trace = Threads.between l t m.trace) : LockInv l G m' where
  value := hv ▸ h.value
  free h₁ t := (hh t).trans (h.free (hv ▸ h₁) t)
  unique t u ht hu := h.unique t u (hh t ▸ ht) (hh u ▸ hu)
  between t ht := (hh t).trans (h.between t (hb t ▸ ht))
  got t ht := (hh t).trans (h.got t ht)
  inside t ht := (hh t).trans (h.inside t ht)
  checked t ht := (hh t).trans (h.checked t ht)
  holder t ht := (hh t).symm ▸ h.holder t (hl ▸ ht)
  position t ht := h.position t (hb t ▸ ht)

theorem frame {T : Obj → Prop} (h : LockInv l G m) (hf : Frame T m m') (hT : Apart T (lockObjs l)) :
    LockInv l G m' := by
  obtain ⟨hs, hl, hc⟩ := apart_lockObjs.mp hT
  exact h.congr (hf.value _ hs) (hf.holder _ hl) (holds_of_frame hf hs) (between_of_frame hf hc)

theorem goto (h : LockInv l G m) {p : LockPos}
    (hp : p = .got ∨ p = .inside ∨ p = .checked → holds l t m.trace = true)
    (hf : G t = .freed → m.threadHoldTheLock l ≠ some t)
    (hb : Threads.between l t m.trace = true → p = .inside) :
    LockInv l (Function.update G t p) m where
  toExclusive := h.toExclusive
  got u hu := by
    rcases eq_or_ne u t with rfl | hut
    · exact hp (.inl (by simpa using hu))
    · exact h.got u (by simpa [hut] using hu)
  inside u hu := by
    rcases eq_or_ne u t with rfl | hut
    · exact hp (.inr (.inl (by simpa using hu)))
    · exact h.inside u (by simpa [hut] using hu)
  checked u hu := by
    rcases eq_or_ne u t with rfl | hut
    · exact hp (.inr (.inr (by simpa using hu)))
    · exact h.checked u (by simpa [hut] using hu)
  holder u hu := by
    refine (h.holder u hu).imp_right fun hg => ?_
    rcases eq_or_ne u t with rfl | hut
    · exact absurd hu (hf hg)
    · rwa [Function.update_of_ne hut]
  position u hu := by
    rcases eq_or_ne u t with rfl | hut
    · rw [Function.update_self]
      exact hb hu
    · rw [Function.update_of_ne hut]
      exact h.position u hu

theorem setHolder (h : LockInv l G m) {v : Option Thread}
    (hv : ∀ u, v = some u → holds l u m.trace = true ∨ G u = .freed) :
    LockInv l G { m with threadHoldTheLock := Function.update m.threadHoldTheLock l v } where
  toExclusive := ⟨h.value, h.free, h.unique, h.between⟩
  got := h.got
  inside := h.inside
  checked := h.checked
  holder u hu := hv u (by simpa using hu)
  position := h.position

theorem free_of_ne_zero (h : LockInv l G m) (hv : (m.semaphore (.lock l)).value ≠ 0) (t : Thread) :
    holds l t m.trace = false := h.free (h.value.resolve_left hv) t

theorem down (h : LockInv l G m) (hv : (m.semaphore (.lock l)).value ≠ 0) :
    LockInv l G (m.setSched (m.toSched.down (.lock l))) := by
  have hval : ((m.toSched.down (.lock l)).semaphore (.lock l)).value = 0 := by
    simp [Sched.down, h.value.resolve_left hv]
  have hnone : ∀ t, ¬ holds l t m.trace = true := fun t => by simp [h.free_of_ne_zero hv t]
  have hself : ∀ t, holds l t (m.toSched.down (.lock l)).trace = true → t = m.currentThread :=
    fun t ht => by
    rw [holds_down, Bool.or_eq_true, beq_iff_eq] at ht
    exact ht.resolve_right (hnone t)
  have hbetween : ∀ t, ¬ Threads.between l t (m.toSched.down (.lock l)).trace = true := fun t ht =>
    hnone t (h.between t ht)
  exact {
    value := .inl hval
    free := fun h₁ => absurd (hval.symm.trans h₁) (by decide)
    unique := fun t u ht hu => (hself t ht).trans (hself u hu).symm
    between := fun t ht => absurd ht (hbetween t)
    got := fun t ht => absurd (h.got t ht) (hnone t)
    inside := fun t ht => absurd (h.inside t ht) (hnone t)
    checked := fun t ht => absurd (h.checked t ht) (hnone t)
    holder := fun t ht => .inr ((h.holder t ht).resolve_left (hnone t))
    position := fun t ht => absurd ht (hbetween t) }

theorem up (h : LockInv l G m) (ht : holds l t m.trace = true) (hg : G t = .freed) :
    LockInv l G (m.setSched (m.toSched.up (.lock l) (some t))) := by
  have hzero : (m.semaphore (.lock l)).value = 0 := h.value.resolve_right
    fun h₁ => by simp [h.free h₁ t] at ht
  have hval : ((m.toSched.up (.lock l) (some t)).semaphore (.lock l)).value = 1 := by
    rw [Sched.value_up_self, hzero, Int.zero_add]
  have hnone : ∀ u, holds l u (m.toSched.up (.lock l) (some t)).trace = false := fun u => by
    rw [holds_up]
    rcases eq_or_ne u t with rfl | hu
    · simp
    · have hu' : holds l u m.trace ≠ true := fun h' => hu (h.unique u t h' ht)
      simp [Bool.eq_false_of_not_eq_true hu']
  have honly : ∀ u, G u ≠ .freed → holds l u m.trace = true → False := fun u hu h' => by
    rw [h.unique u t h' ht] at hu
    exact hu hg
  have hbetween : ∀ u, Threads.between l u (m.toSched.up (.lock l) (some t)).trace =
      Threads.between l u m.trace :=
    between_of_frame (frame_up m (.lock l) (some t)) (by simp)
  have hposition : ∀ u, ¬ Threads.between l u (m.toSched.up (.lock l) (some t)).trace = true :=
    fun u hu => by
    rw [hbetween] at hu
    exact honly u (by simp [h.position u hu]) (h.between u hu)
  exact {
    value := .inr hval
    free := fun _ => hnone
    unique := fun u _ hu => absurd hu (by simp [hnone u])
    between := fun u hu => absurd hu (hposition u)
    got := fun u hu => (honly u (by simp [hu]) (h.got u hu)).elim
    inside := fun u hu => (honly u (by simp [hu]) (h.inside u hu)).elim
    checked := fun u hu => (honly u (by simp [hu]) (h.checked u hu)).elim
    holder := fun u hu => .inr (by_contra fun hf => honly u hf ((h.holder u hu).resolve_right hf))
    position := fun u hu => absurd hu (hposition u) }

theorem note (h : LockInv l G m) {e : Event} (he : e.obj = some .calls)
    (hb : ∀ u, Threads.between l u (e :: m.trace) = true → G u = .inside) :
    LockInv l G (m.setSched (m.toSched.note e)) := by
  have hf : Frame (· = .calls) m (m.setSched (m.toSched.note e)) :=
    .note m (by simp [he])
  have hh : ∀ t, holds l t (e :: m.trace) = holds l t m.trace := holds_of_frame hf (by simp)
  exact {
    value := h.value
    free := fun h₁ t => (hh t).trans (h.free h₁ t)
    unique := fun t u ht hu => h.unique t u ((hh t).symm.trans ht) ((hh u).symm.trans hu)
    between := fun t ht => (hh t).trans (h.inside t (hb t ht))
    got := fun t ht => (hh t).trans (h.got t ht)
    inside := fun t ht => (hh t).trans (h.inside t ht)
    checked := fun t ht => (hh t).trans (h.checked t ht)
    holder := fun t ht => (h.holder t ht).imp_left ((hh t).trans ·)
    position := hb }

end LockInv

/-! ## The routines -/

def lockDiscipline (l : LockId) : Discipline ops Machine Thread Choice LockPos where
  Inv := LockInv l
  Allowed _ _ _ _ := True
  Legal _ := True

section routines
variable {l : LockId} {t : Thread} {g p : LockPos}

theorem lock_within {α : Type} {T : Obj → Prop} {prog : Prog α} (hp : prog.Uses (Op.Within T))
    (hT : Apart T (lockObjs l)) : platform.Safe (lockDiscipline l) t prog (fun _ g' => g' = g) g :=
  Safe.of_uses (hp.mono fun _ ho => ⟨trivial, fun _ _ _ _ hI _ he =>
    LockInv.frame hI (exec_within ho he) (hT.or_shared apart_shared_lockObjs)⟩)

theorem lock_setLevel (now : IntStatus) :
    platform.Safe (lockDiscipline l) t (setLevel now) (fun _ g' => g' = g) g :=
  lock_within (T := fun _ => False) (within_setLevel now) apart_false

/-- The thread is not in the routines of the lock. -/
def LockPos.Settled (g : LockPos) : Prop := g = .out ∨ g = .inside

theorem lock_p (hs : g.Settled) :
    platform.Safe (lockDiscipline l) t (Semaphore.p (.lock l)) (fun _ g' => g' = .got) g := by
  refine safe_p (fun now _ _ => lock_setLevel now) (safe_takeValue trivial
    (fun G m hI _ _ _ _ => ?_)
    fun G m x hI hg _ ht _ hv => ?_)
  · refine LockInv.congr hI ?_ rfl (fun _ => since_cons_of_not rfl rfl)
      fun _ => since_cons_of_not rfl rfl
    simp [Sched.park]
  · have hdown := LockInv.down hI hv
    refine ⟨.got, hdown.goto (fun _ => ?_) (fun hf => ?_) fun hb => ?_, rfl⟩
    · simp [holds_down, ht]
    · rcases hs with rfl | rfl <;> simp [hg] at hf
    · -- a thread inside would have had the permit
      have hhold := LockInv.inside hI t (hdown.position t hb)
      simp [LockInv.free_of_ne_zero hI hv] at hhold

theorem lock_acquire (p : LockPos) (hs : g.Settled) :
    platform.Safe (lockDiscipline l) t (Lock.acquire l) (fun _ g' => g' = p) g := by
  refine safe_acquire trivial (lock_p hs)
    (safe_once rfl trivial fun G m x r m' hI hg _ _ _ he => ?_)
  cases he
  have hhold := LockInv.got hI t hg
  have hmoved := LockInv.goto hI (t := t) (p := p) (fun _ => hhold) (by simp [hg]) fun hb => by
    simp [LockInv.position hI t hb] at hg
  refine ⟨p, hmoved.setHolder fun v hv => ?_, rfl⟩
  cases hv
  exact .inl hhold

theorem lock_isHeldByCurrentThread :
    platform.Safe (lockDiscipline l) t (Lock.isHeldByCurrentThread l)
      (fun b g' => if b then g' = .checked else g' = .out) .out := by
  refine safe_isHeldByCurrentThread trivial (safe_once rfl trivial
    fun G m x r m' hI hg _ _ _ he => ?_)
  cases he
  have hb : between l t m.trace = true → ∀ p, p = LockPos.inside := fun hb => by
    simp [LockInv.position hI t hb] at hg
  by_cases hv : m.threadHoldTheLock l = some t
  · refine ⟨.checked, LockInv.goto hI (fun _ => ?_) (by simp [hg]) fun hb' =>
      hb hb' _, by simp [hv]⟩
    exact (LockInv.holder hI t hv).resolve_right (by simp [hg])
  · exact ⟨.out, LockInv.goto hI (by simp) (by simp [hg]) fun hb' => hb hb' _, by simp [hv]⟩

theorem lock_v :
    platform.Safe (lockDiscipline l) t (Semaphore.v (.lock l))
      (fun _ g' => g' = .freed) .checked := by
  refine safe_v (fun now _ _ => lock_setLevel now)
    (safe_once rfl trivial fun G m x r m' hI hg _ ht _ he => ?_)
  cases he
  have hhold := LockInv.checked hI t hg
  have hmoved := LockInv.goto hI (t := t) (p := .freed) (by simp) (by simp [hg]) fun hb => by
    simp [LockInv.position hI t hb] at hg
  exact ⟨.freed, ht ▸ hmoved.up (ht ▸ hhold) (by simp [ht]), rfl⟩

theorem lock_release :
    platform.Safe (lockDiscipline l) t (Lock.release l) (fun _ g' => g' = .out) .out := by
  refine safe_release .checked lock_isHeldByCurrentThread lock_v fun q hq =>
    safe_once rfl trivial fun G m x r m' hI hg _ _ _ he => ?_
  cases he
  subst hq
  have hclear := LockInv.setHolder hI (v := none) (by simp)
  exact ⟨.out, hclear.goto (by simp) (by simp) fun hb => by simp [hclear.position t hb] at hg, rfl⟩

theorem lock_wait (c : CondId) :
    platform.Safe (lockDiscipline l) t (Condition.wait c l) (fun _ g' => g' = p) .out := by
  have hsleep : platform.Safe (lockDiscipline l) t (sleepOn c) (fun _ g' => g' = .out) .out :=
    lock_within (T := (· = .condition c)) (within_perform (.inr fun _ h => h)) (by simp)
  exact lock_release.bind_eq fun _ => (lock_setLevel .off).bind_eq fun old =>
    hsleep.bind_eq fun _ =>
    (lock_setLevel old).bind_eq fun _ => lock_acquire p (.inl rfl)

theorem lock_enter {c : Call} (hc : callsRelease l t (.enter t c) = false) :
    platform.Safe (lockDiscipline l) t (enter c) (fun _ g' => g' = g) g := by
  refine safe_once rfl trivial fun G m x r m' hI hg _ ht _ he => ?_
  cases he
  refine ⟨g, ?_, rfl⟩
  rw [← hg, Function.update_eq_self]
  refine LockInv.note hI rfl fun u hu => LockInv.position hI u ?_
  rwa [ht, between_enter hc] at hu

theorem lock_enter_release {c : Call} (hs : g.Settled) (hc : callsRelease l t (.enter t c) = true) :
    platform.Safe (lockDiscipline l) t (enter c) (fun _ g' => g' = .out) g := by
  refine safe_once rfl trivial fun G m x r m' hI hg _ ht _ he => ?_
  cases he
  have hoff : between l t (.enter t c :: m.trace) = false := since_cons_off rfl hc
  have hnote : LockInv l G (m.setSched (m.toSched.note (.enter t c))) := by
    refine LockInv.note hI rfl fun u hu => LockInv.position hI u ?_
    rcases eq_or_ne u t with rfl | hut
    · rw [hoff] at hu
      cases hu
    · rwa [between_enter_of_ne hut] at hu
  rw [ht]
  refine ⟨.out, hnote.goto (by simp) (fun hf => ?_) fun hb => ?_, rfl⟩
  · rcases hs with rfl | rfl <;> simp [hg] at hf
  · exact absurd (hoff.symm.trans hb) (by decide)

theorem lock_leave {c : Call} (hc : returnsHolding l t (.leave t c) = true → g = .inside) :
    platform.Safe (lockDiscipline l) t (leave c) (fun _ g' => g' = g) g := by
  refine safe_once rfl trivial fun G m x r m' hI hg _ ht _ he => ?_
  cases he
  refine ⟨g, ?_, rfl⟩
  rw [← hg, Function.update_eq_self]
  refine LockInv.note hI rfl fun u hu => ?_
  rw [ht] at hu
  by_cases hr : u = t ∧ returnsHolding l t (.leave t c) = true
  · rw [hr.1, hg, hc hr.2]
  · refine LockInv.position hI u ?_
    rcases eq_or_ne u t with rfl | hut
    · rwa [between_leave (Bool.eq_false_of_not_eq_true fun h => hr ⟨rfl, h⟩)] at hu
    · rwa [between_leave_of_ne hut] at hu

theorem lock_prog {c : Call} {g' : LockPos} (hg' : g'.Settled)
    (henter : platform.Safe (lockDiscipline l) t (enter c) (fun _ g' => g' = p) g)
    (hbody : platform.Safe (lockDiscipline l) t c.body (fun _ q => q = g') p)
    (hleave : returnsHolding l t (.leave t c) = true → g' = .inside) :
    platform.Safe (lockDiscipline l) t c.prog (fun _ q => q.Settled) g :=
  safe_prog henter hbody ((lock_leave hleave).mono fun _ _ hq => hq ▸ hg')

theorem lock_section {α β : Type} {T : Obj → Prop} {body : Prog α} {rest : α → Prog β}
    {Q : β → LockPos → Prop} (hp : body.Uses (Op.Within T))
    (hT : Apart T (lockObjs l))
    (hrest : ∀ a, platform.Safe (lockDiscipline l) t (rest a) Q g) :
    platform.Safe (lockDiscipline l) t (body >>= rest) Q g :=
  (lock_within hp hT).bind_eq hrest

theorem lock_rdLock {w : Nat} (hs : g.Settled) :
    platform.Safe (lockDiscipline (.rdlock w)) t (RWLock.rdLock w) (fun _ g' => g' = .out) g := by
  refine (lock_acquire .out hs).bind_eq fun _ => ?_
  refine lock_section (T := fun _ => False) (within_perform (.inr fun _ => id)) apart_false
    fun n => ?_
  have hcount : platform.Safe (lockDiscipline (.rdlock w)) t
      (do setReaders w ((← getReaders w) + 1); Lock.release (.rdlock w))
        (fun _ g' => g' = .out) .out :=
    lock_section (T := fun _ => False) (within_perform (.inr fun _ => id)) apart_false fun n =>
      lock_section (T := (· = .readers w)) (within_perform (.inr fun _ h => h)) (by simp) fun _ =>
        lock_release
  dsimp only
  split
  · exact lock_section (T := (· = .semaphore (.wrlock w))) (within_p rfl) (by simp) fun _ => hcount
  · exact hcount

theorem lock_rdUnlock {w : Nat} (hs : g.Settled) :
    platform.Safe (lockDiscipline (.rdlock w)) t (RWLock.rdUnlock w) (fun _ g' => g' = .out) g := by
  refine (lock_acquire .out hs).bind_eq fun _ => ?_
  refine lock_section (T := fun _ => False) (within_perform (.inr fun _ => id)) apart_false fun n =>
    lock_section (T := (· = .readers w)) (within_perform (.inr fun _ h => h)) (by simp) fun _ =>
      lock_section (T := fun _ => False) (within_perform (.inr fun _ => id)) apart_false fun n => ?_
  dsimp only
  split
  · exact lock_section (T := (· = .semaphore (.wrlock w))) (within_v rfl) (by simp) fun _ =>
      lock_release
  · exact lock_release

theorem lock_append {q item : Nat} (hs : g.Settled) :
    platform.Safe (lockDiscipline (.list q)) t (SynchList.append q item)
      (fun _ g' => g' = .out) g := by
  refine (lock_acquire .out hs).bind_eq fun _ => ?_
  exact lock_section (T := (· = .list q)) (within_perform (.inr fun _ h => h)) (by simp) fun _ =>
    lock_section (T := (· = .condition (.listEmpty q))) (within_signal rfl) (by simp) fun _ =>
      lock_release

theorem lock_remove {q : Nat} (hs : g.Settled) :
    platform.Safe (lockDiscipline (.list q)) t (SynchList.remove q) (fun _ g' => g' = .out) g := by
  refine (lock_acquire .out hs).bind_eq fun _ => ?_
  have hloop : platform.Safe (lockDiscipline (.list q)) t
      (whileLoop (listIsEmpty q) (Condition.wait (.listEmpty q) (.list q)))
        (fun _ g' => g' = .out) .out := by
    refine safe_whileLoop (I := (· = .out)) (B := (· = .out)) trivial trivial (fun g hg => ?_)
      (fun g hg => ?_) rfl
    · have hempty : (listIsEmpty q).Uses (Op.Within fun _ => False) :=
        within_perform (.inr fun _ => id)
      refine (lock_within hempty apart_false).mono fun b g' hg' => ?_
      cases b <;> exact hg'.trans hg
    · subst hg
      exact lock_wait _
  refine hloop.bind_eq fun _ => ?_
  exact lock_section (T := (· = .list q)) (within_perform (.inr fun _ h => h)) (by simp) fun item =>
    lock_section (T := (· = .assertion .itemNotNull)) (within_perform (.inr fun _ h => h))
      (by simp) fun _ =>
      lock_release.bind_eq fun _ => rfl

theorem lock_diskRequest {α β : Type} {n : Int} {request : Prog α} {rest : α → Prog β}
    (hr : request.Uses (Op.Within (· = .disk))) (hs : g.Settled)
    (hrest : ∀ a, platform.Safe (lockDiscipline .disk) t (rest a) (fun _ g' => g' = .out) .out) :
    platform.Safe (lockDiscipline .disk) t (do
      Lock.acquire .disk
      SynchDisk.checkRequest n
      let data ← request
      Semaphore.p .disk
      rest data) (fun _ g' => g' = .out) g := by
  refine (lock_acquire .out hs).bind_eq fun _ => ?_
  exact lock_section (T := fun x => x = .assertion .notActive ∨ x = .assertion .sectorNumber)
    (within_checkRequest n (.inl rfl) (.inr rfl)) (by simp) fun _ =>
    lock_section hr (by simp) fun _ => lock_section (T := (· = .semaphore .disk)) (within_p rfl)
      (by simp) fun _ =>
      hrest _

theorem lock_putChar {ch : Byte} (hs : g.Settled) :
    platform.Safe (lockDiscipline .console) t (SynchConsole.putChar ch)
      (fun _ g' => g' = .out) g := by
  refine (lock_acquire .out hs).bind_eq fun _ => ?_
  have hput : (Console.putChar ch).Uses
      (Op.Within fun x => x = .display ∨ x = .assertion .notPutBusy) :=
    (within_perform (.inr fun _ => False.elim)).bind fun _ =>
      (within_perform (.inr fun _ => .inr)).bind fun _ => within_perform (.inr fun _ => .inl)
  exact lock_section hput (by simp) fun _ => lock_release

theorem lock_getChar (hs : g.Settled) :
    platform.Safe (lockDiscipline .console) t SynchConsole.getChar (fun _ g' => g' = .out) g := by
  refine (lock_acquire .out hs).bind_eq fun _ => ?_
  exact lock_section (T := (· = .keyboard)) (within_perform (.inr fun _ h => h)) (by simp) fun _ =>
    lock_release.bind_eq fun _ => rfl

theorem lock_send {pktHdr : PacketHeader} {mailHdr : MailHeader} {data : List Byte}
    (hs : g.Settled) :
    platform.Safe (lockDiscipline .send) t (PostOffice.send pktHdr mailHdr data)
      (fun _ g' => g' = .out) g := by
  refine lock_section (T := fun _ => False) (within_perform (.inr fun _ => id)) apart_false
    fun office => lock_section (T := (· = .assertion .mailLength))
      (within_perform (.inr fun _ h => h)) (by simp) fun _ =>
    lock_section (T := (· = .assertion .mailBox)) (within_perform (.inr fun _ h => h)) (by simp)
      fun _ => ?_
  refine (lock_acquire .out hs).bind_eq fun _ => ?_
  exact lock_section (T := fun x => x = .outbox ∨ x = .assertion .maySend)
    (within_networkSend (.inl rfl) (.inr rfl)) (by simp) fun _ =>
      lock_section (T := (· = .semaphore .messageSent)) (within_p rfl) (by simp) fun _ =>
        lock_release

theorem lock_receive {box : Int} (hs : g.Settled) :
    platform.Safe (lockDiscipline (.list box.toNat)) t (PostOffice.receive box)
      (fun _ g' => g' = .out) g := by
  have hget : platform.Safe (lockDiscipline (.list box.toNat)) t (MailBox.get box.toNat)
      (fun _ g' => g' = .out) g := by
    refine (lock_remove hs).bind_eq fun item => ?_
    exact lock_within (T := (· = .postOffice)) (within_perform (.inr fun _ h => h)) (by simp)
  refine lock_section (T := fun _ => False) (within_perform (.inr fun _ => id)) apart_false
    fun office => lock_section (T := (· = .assertion .mailBox)) (within_perform (.inr fun _ h => h))
      (by simp) fun _ => hget.bind_eq fun mail => ?_
  exact lock_section (T := (· = .assertion .mailLength)) (within_perform (.inr fun _ h => h))
    (by simp) fun _ => rfl

theorem lock_deliver {q : Nat} {buffer : List Byte} (hs : g.Settled) :
    platform.Safe (lockDiscipline (.list q)) t (PostOffice.deliver buffer)
      (fun _ g' => g'.Settled) g := by
  have happend : ∀ box item, platform.Safe (lockDiscipline (.list q)) t
      (SynchList.append box item) (fun _ g' => g'.Settled) g := fun box item => by
    by_cases hq : box = q
    · subst hq
      exact (lock_append hs).mono fun _ _ hg => .inl hg
    · have hT : Apart (listTouches box) (lockObjs (.list q)) := by simp [Ne.symm hq]
      exact (lock_within (within_append fun _ h => h) hT).mono fun _ _ hg => hg ▸ hs
  refine lock_section (T := (· = .semaphore .messageAvailable)) (within_p rfl) (by simp) fun _ =>
    lock_section (T := (· = .inbox)) (within_perform (.inr fun _ h => h)) (by simp) fun packet =>
    lock_section (T := fun _ => False) (within_perform (.inr fun _ => id)) apart_false fun office =>
    lock_section (T := (· = .assertion .mailBox)) (within_perform (.inr fun _ h => h)) (by simp)
      fun _ => lock_section (T := (· = .assertion .mailLength)) (within_perform (.inr fun _ h => h))
        (by simp) fun _ => Safe.bind (Q := fun _ g' => g'.Settled) ?_ fun _ _ hg => hg
  exact lock_section (T := (· = .assertion .mailLength)) (within_perform (.inr fun _ h => h))
    (by simp) fun _ => lock_section (T := (· = .postOffice)) (within_perform (.inr fun _ h => h))
      (by simp) fun item => happend _ item

theorem lock_postalDelivery {q : Nat} (hs : g.Settled) :
    platform.Safe (lockDiscipline (.list q)) t PostOffice.postalDelivery
      (fun _ g' => g'.Settled) g := by
  refine lock_section (T := fun _ => False) (within_perform (.inr fun _ => id)) apart_false
    fun n => ?_
  generalize List.replicate 52 (0 : Byte) = buffer
  induction n generalizing buffer g with
  | zero => exact safe_once rfl trivial fun G m x r m' _ _ _ _ _ he => by cases he
  | succ n ih => exact (lock_deliver hs).bind fun buffer _ hg => ih hg buffer

theorem lock_call (c : Call) (hs : g.Settled) :
    platform.Safe (lockDiscipline l) t c.prog (fun _ g' => g'.Settled) g := by
  by_cases hc : c.touches (.holder l)
  · cases c with
    | acquire n =>
      obtain rfl : l = .user n := by simpa [Call.touches] using hc
      exact lock_prog (.inr rfl) (lock_enter rfl) (lock_acquire .inside hs) fun _ => rfl
    | release n =>
      obtain rfl : l = .user n := by simpa [Call.touches] using hc
      exact lock_prog (.inl rfl) (lock_enter_release hs (by simp [callsRelease])) lock_release
        (by simp [returnsHolding])
    | wait c n =>
      obtain rfl : l = .user n := by simpa [Call.touches] using hc
      exact lock_prog (.inr rfl) (lock_enter_release hs (by simp [callsRelease])) (lock_wait _)
        fun _ => rfl
    | rdLock w =>
      obtain rfl : l = .rdlock w := by simpa [Call.touches] using hc
      exact lock_prog (.inl rfl) (lock_enter rfl) (lock_rdLock hs) (by simp [returnsHolding])
    | rdUnlock w =>
      obtain rfl : l = .rdlock w := by simpa [Call.touches] using hc
      exact lock_prog (.inl rfl) (lock_enter rfl) (lock_rdUnlock hs) (by simp [returnsHolding])
    | append q item =>
      obtain rfl : l = .list q := by simpa [Call.touches] using hc
      exact lock_prog (.inl rfl) (lock_enter rfl) (lock_append hs) (by simp [returnsHolding])
    | remove q =>
      obtain rfl : l = .list q := by simpa [Call.touches] using hc
      exact lock_prog (.inl rfl) (lock_enter rfl) (lock_remove hs) (by simp [returnsHolding])
    | readSector n =>
      obtain rfl : l = .disk := by simpa [Call.touches] using hc
      refine lock_prog (.inl rfl) (lock_enter rfl) (lock_diskRequest ?_ hs fun _ => ?_)
        (by simp [returnsHolding])
      · exact within_perform (.inr fun _ h => h)
      · exact lock_release.bind_eq fun _ => rfl
    | writeSector n d =>
      obtain rfl : l = .disk := by simpa [Call.touches] using hc
      refine lock_prog (.inl rfl) (lock_enter rfl) (lock_diskRequest ?_ hs fun _ => ?_)
        (by simp [returnsHolding])
      · exact within_perform (.inr fun _ h => h)
      · exact lock_release
    | putChar ch =>
      obtain rfl : l = .console := by simpa [Call.touches] using hc
      exact lock_prog (.inl rfl) (lock_enter rfl) (lock_putChar hs) (by simp [returnsHolding])
    | getChar =>
      obtain rfl : l = .console := by simpa [Call.touches] using hc
      exact lock_prog (.inl rfl) (lock_enter rfl) (lock_getChar hs) (by simp [returnsHolding])
    | send pktHdr mailHdr data =>
      obtain rfl : l = .send := by simpa [Call.touches] using hc
      exact lock_prog (.inl rfl) (lock_enter rfl) (lock_send hs) (by simp [returnsHolding])
    | receive box =>
      obtain rfl : l = .list box.toNat := by simpa [Call.touches] using hc
      exact lock_prog (.inl rfl) (lock_enter rfl) (lock_receive hs) (by simp [returnsHolding])
    | postalDelivery =>
      obtain ⟨q, rfl⟩ : ∃ q, l = .list q := by simpa [Call.touches] using hc
      refine (lock_enter rfl).bind_eq fun _ => (lock_postalDelivery hs).bind fun _ g' hg' => ?_
      exact (lock_leave (by simp [returnsHolding])).bind_eq fun _ => hg'
    | p | v | signal | broadcast | wrLock | wrUnlock | pReadAvail | pWriteDone | fork | yield
    | finish =>
      simp [Call.touches] at hc
  · have hsem : ¬ c.touches (.semaphore (.lock l)) := by
      cases c <;> simp_all [Call.touches]
    have hnot := calls_of_not_touches (t := t) (u := t) hc
    refine lock_prog hs (lock_enter hnot.1) (lock_within c.body_within ?_) (by simp [hnot.2])
    exact apart_lockObjs.mpr ⟨hsem, hc, c.not_touches_calls⟩

end routines

theorem LockInv.initial (l : LockId) (config : NetConfig) (user : Nat → Int) :
    LockInv l (fun _ => .out) ((Machine.initial (initialValue user)).named config) where
  value := .inr rfl
  free _ _ := rfl
  unique _ _ := nofun
  between _ := nofun
  got _ := nofun
  inside _ := nofun
  checked _ := nofun
  holder _ := nofun
  position _ := nofun

variable {user : Nat → Int} {client : Thread → Client} {c : Tasks ops Machine Unit Thread}

/-- Whatever the threads do, at most one of them has the permit of the lock. -/
theorem exclusive_of_run (l : LockId) {config : NetConfig}
    (h : platform.Run (fun _ _ => True) (startNamed config user client) c) :
    Exclusive l c.state := by
  have hmeets : (lockDiscipline l).Meets (α := Unit) = fun _ _ => True := by
    funext c mv
    cases mv <;> simp [Discipline.Meets, lockDiscipline]
  obtain ⟨G, hI, -⟩ := exists_ghost (D := lockDiscipline l) (R := fun _ _ g => LockPos.Settled g)
    (LockInv.initial l config user)
    (fun G x m m' hI he => by
      obtain ⟨m₁, is, h₁, hf⟩ := env_frame he
      exact (LockInv.frame hI (handle_frame h₁) apart_shared_lockObjs).frame hf apart_false)
    (fun t => lock_setLevel .on) (fun t o _ _ g _ hg => lock_call o hg)
    (fun t _ g hg => (lock_call .finish hg).mono fun _ _ _ => trivial) (fun _ => .inl rfl)
    (fun t => follows_any (client t)) (hmeets ▸ h)
  exact LockInv.toExclusive hI

/-- At most one thread is between a returned `Acquire` and its next call of `Release`. -/
theorem lock_mutualExclusion (n : Nat) (h : platform.Run (fun _ _ => True) (start user client) c) :
    (∀ t u, between (.user n) t c.state.trace = true → between (.user n) u c.state.trace = true →
      t = u) ∧
      ((c.state.semaphore (.lock (.user n))).value = 0 ∨
        (c.state.semaphore (.lock (.user n))).value = 1) := by
  have hex := exclusive_of_run (.user n) h
  exact ⟨fun t u ht hu => hex.unique t u (hex.between t ht) (hex.between u hu), hex.value⟩

def acquireClient : Thread → Client
  | 0 => do
    perform (S := calls) (.fork 1)
    perform (S := calls) (.acquire 0)
    perform (S := calls) .yield
  | _ => perform (S := calls) (.acquire 0)

/-- The main thread has returned from `Acquire`, and the other one sleeps in it. -/
theorem lock_mutualExclusion_acquired :
    ∃ c, platform.Run (fun _ _ => True) (start (fun _ => 0) acquireClient) c ∧
      between (.user 0) 0 c.state.trace = true ∧
      (c.state.semaphore (.lock (.user 0))).queue = [1] ∧
      ∀ u, between (.user 0) u c.state.trace = true → 0 = u := by
  have h := run_of_replay (P := platform) (c := start (fun _ => 0) acquireClient)
    (List.replicate 15 (.act 0 ⟨[], false, 0⟩) ++ List.replicate 4 (.act 1 ⟨[], false, 0⟩)) rfl
  exact ⟨_, h, rfl, rfl, fun u => (lock_mutualExclusion 0 h).1 0 u rfl⟩

end Nachos.Threads
