import Nachos.Threads.Lock

/-! `Condition::Wait` releases the lock and then goes to sleep. The `V` in its `Release` turns
interrupts on before `Wait` turns them off again, and there the time slice may end: the thread
has released the lock and is not yet on the queue of the condition. -/

namespace Nachos.Threads
open Lib Program Platform

/-- Thread `t` has called `Wait`, and has not been signalled since. -/
def inWait (b n : Nat) (t : Thread) : List Event → Bool :=
  since (fun e => e = .enter t (.wait b n)) fun e => e = .signalled (.user b) t

/-- Thread `t` has done a `V` of the lock since it last called `Wait`. -/
def releasedIn (b n : Nat) (t : Thread) : List Event → Bool :=
  since (fun e => e = .up (.lock (.user n)) (some t)) fun e => e = .enter t (.wait b n)

/-- Thread `t` has released the lock in `Wait`, and no `Signal` or `Broadcast` has removed it
from the queue. -/
def awaitsSignal (b n : Nat) (t : Thread) (h : List Event) : Bool :=
    inWait b n t h && releasedIn b n t h

/-- While a thread is about to put itself on the queue, having released the lock, its time slice
does not end, or there is no other thread to run. -/
def KeepsTurn (b n : Nat) (c : Tasks ops Machine Unit Thread) : Move Thread Choice → Prop
  | .act t x => ∀ k, c.prog t = .call (.setLevel .on) k → awaitsSignal b n t c.state.trace = true →
    t ∉ c.state.queue (.user b) → x.timeSlice = true →
      ∀ m, c.state.handle x.interrupts = some m → m.readyList = []
  | .env _ => True

inductive WaitPos where
  | resting
  /-- `Wait` is called, and has not released the lock. -/
  | called
  /-- The lock is released, and the thread is not on the queue. -/
  | gap

def Rests (b n : Nat) (k : Sched) (t : Thread) : Prop :=
  t ∈ k.queue (.user b) ∨ inWait b n t k.trace = false

def WaitAt (b n : Nat) (m : Machine) (t : Thread) : WaitPos → Prop
  | .resting => Rests b n m.toSched t
  | .called => releasedIn b n t m.trace = false
  | .gap => awaitsSignal b n t m.trace = true ∧ t ∉ m.queue (.user b) ∧ m.currentThread = t ∧
    m.asleep = false

def CondInv (b n : Nat) (G : Thread → WaitPos) (m : Machine) : Prop := ∀ t, WaitAt b n m t (G t)

section positions
variable {b n : Nat} {t u : Thread} {T : Obj → Prop} {k : Sched} {m m' : Machine} {o : Op}
  {x : Choice}
  {e : Effect (ops.Res o) Machine}

theorem inWait_of_frame (hf : Frame T m m') (hb : ¬ T (.condition (.user b))) (hc : ¬ T .calls) :
    inWait b n u m'.trace = inWait b n u m.trace := by
  refine hf.since_eq fun e he => ?_
  simp only [decide_eq_true_eq] at he
  rcases he with rfl | rfl
  · exact ⟨_, rfl, hc⟩
  · exact ⟨_, rfl, hb⟩

theorem releasedIn_of_frame (hf : Frame T m m') (hs : ¬ T (.semaphore (.lock (.user n))))
    (hc : ¬ T .calls) :
    releasedIn b n u m'.trace = releasedIn b n u m.trace := by
  refine hf.since_eq fun e he => ?_
  simp only [decide_eq_true_eq] at he
  rcases he with rfl | rfl
  · exact ⟨_, rfl, hs⟩
  · exact ⟨_, rfl, hc⟩

namespace Rests

theorem frame (h : Rests b n m.toSched u) (hf : Frame T m m') (hb : ¬ T (.condition (.user b)))
    (hc : ¬ T .calls) : Rests b n m'.toSched u := by
  rw [Rests, hf.queue _ hb, inWait_of_frame hf hb hc]
  exact h

theorem signal (h : Rests b n k u) : Rests b n (k.signal (.user b)) u := by
  rw [Sched.signal]
  split
  · exact h
  · next v rest hq =>
    have htrace : inWait b n u (((k.setQueue (.user b) rest).note
      (.signalled (.user b) v)).readyToRun v).trace =
        inWait b n u (.signalled (.user b) v :: k.trace) := since_cons_of_not rfl rfl
    rw [Rests, htrace]
    rcases eq_or_ne u v with rfl | hu
    · exact .inr (since_cons_off rfl (by simp))
    · have hcons : inWait b n u (.signalled (.user b) v :: k.trace) = inWait b n u k.trace :=
        since_cons_of_not rfl (by simp [Ne.symm hu])
      rw [hcons]
      refine h.imp_left fun hm => ?_
      rw [hq] at hm
      simpa using (List.mem_cons.mp hm).resolve_left hu

theorem broadcast (h : Rests b n k u) : Rests b n (k.broadcast (.user b)) u := by
  rw [Sched.broadcast]
  generalize k.queue (.user b) = q
  induction q generalizing k with
  | nil => exact h
  | cons v q ih => exact ih h.signal

theorem exec (h : Rests b n m.toSched u) (he : platform.exec t o x m = some e)
    (ho : ¬ o.touches .calls) :
    Rests b n e.state.toSched u := by
  by_cases hb : o.touches (.condition (.user b))
  · obtain ⟨-, -, he⟩ := exec_eq_some he
    cases o <;> simp only [Op.touches, reduceCtorEq, Obj.condition.injEq] at hb <;> subst hb
    · simp only [Machine.execute] at he
      split at he
      · cases he
        refine h.imp (fun hm => ?_) fun hw => (since_cons_of_not rfl rfl).trans hw
        simp [Effect.state, Sched.wait, hm]
      · cases he
    · cases he
      exact h.signal
    · cases he
      exact h.broadcast
  · exact h.frame (exec_within (.inr fun _ hx => hx) he) (by simp [Obj.Shared, hb])
      (by simp [Obj.Shared, ho])

end Rests

theorem releasedIn_exec (he : platform.exec t o x m = some e) (ho : ¬ o.touches .calls)
    (hv : u = t → o ≠ .giveValue (.lock (.user n))) :
    releasedIn b n u e.state.trace = releasedIn b n u m.trace := by
  by_cases hs : o.touches (.semaphore (.lock (.user n)))
  · obtain ⟨ht, -, he⟩ := exec_eq_some he
    cases o <;> simp only [Op.touches, reduceCtorEq, Obj.semaphore.injEq] at hs <;> subst hs
    · simp only [Machine.execute] at he
      split at he
      · split at he
        · cases he
          exact since_cons_of_not rfl rfl
        · cases he
      · cases he
        exact since_cons_of_not rfl rfl
    · cases he
      have hu : m.currentThread ≠ u := fun h => hv (h.symm.trans ht) rfl
      exact (since_up (by simp) (by simp)).trans (since_cons_of_not (by simp [hu]) rfl)
  · exact releasedIn_of_frame (exec_within (.inr fun _ hx => hx) he) (by simp [Obj.Shared, hs])
      (by simp [Obj.Shared, ho])

end positions

namespace CondInv
variable {b n : Nat} {t u : Thread} {p : WaitPos} {G : Thread → WaitPos} {m m' : Machine} {o : Op}
  {x : Choice}
  {e : Effect (ops.Res o) Machine}

theorem ne_gap (h : CondInv b n G m) (ht : m.currentThread = t) (hu : u ≠ t) :
    G u ≠ .gap := fun hg => by
  have hat := h u
  rw [hg] at hat
  exact hu (hat.2.2.1.symm.trans ht)

theorem step (h : CondInv b n G m) (he : platform.exec t o x m = some e) (ho : ¬ o.touches .calls)
    (hat : WaitAt b n e.state t p) : CondInv b n (Function.update G t p) e.state := by
  intro u
  rcases eq_or_ne u t with rfl | hu
  · rwa [Function.update_self]
  · rw [Function.update_of_ne hu]
    have hat := h u
    have hgap := h.ne_gap (exec_eq_some he).1 hu
    cases hG : G u with
    | resting =>
      rw [hG] at hat
      exact Rests.exec hat he ho
    | called =>
      rw [hG] at hat
      exact (releasedIn_exec he ho fun h => absurd h hu).trans hat
    | gap => exact absurd hG hgap

theorem exec (h : CondInv b n G m) (he : platform.exec t o x m = some e) (ho : ¬ o.touches .calls)
    (hg : G t = .resting ∨ G t = .called ∧ o ≠ .giveValue (.lock (.user n))) :
    CondInv b n G e.state := by
  have hstep := h.step (p := G t) he ho ?_
  · rwa [Function.update_eq_self] at hstep
  · have hat := h t
    rcases hg with hg | ⟨hg, hv⟩
    · rw [hg] at hat ⊢
      exact Rests.exec hat he ho
    · rw [hg] at hat ⊢
      exact (releasedIn_exec he ho fun _ => hv).trans hat

theorem env (h : CondInv b n G m) (he : platform.env x m = some m') : CondInv b n G m' := by
  intro u
  have hat := h u
  obtain ⟨m₁, is, h₁, hf⟩ := env_frame he
  have hframe : Frame Obj.Shared m m' := (handle_frame h₁).trans (hf.mono fun _ => False.elim)
  cases hG : G u with
  | resting =>
    rw [hG] at hat
    exact Rests.frame hat hframe not_false not_false
  | called =>
    rw [hG] at hat
    exact (releasedIn_of_frame hframe not_false not_false).trans hat
  | gap =>
    rw [hG] at hat
    cases hat.2.2.2.symm.trans (env_eq_some he).1

theorem note {e : Event} (h : CondInv b n G m) (ht : m.currentThread = t) (he : e.obj = some .calls)
    (hw : ∀ u, u ≠ t → e ≠ .enter u (.wait b n))
    (hat : WaitAt b n (m.setSched (m.toSched.note e)) t p) :
    CondInv b n (Function.update G t p) (m.setSched (m.toSched.note e)) := by
  intro u
  rcases eq_or_ne u t with rfl | hu
  · rwa [Function.update_self]
  · rw [Function.update_of_ne hu]
    have hat := h u
    have hsig : e ≠ .signalled (.user b) u := by
      rintro rfl
      cases he
    have hup : e ≠ .up (.lock (.user n)) (some u) := by
      rintro rfl
      cases he
    cases hG : G u with
    | resting =>
      rw [hG] at hat
      exact hat.imp_right fun hi => (since_cons_of_not (by simp [hw u hu]) (by simp [hsig])).trans
        hi
    | called =>
      rw [hG] at hat
      exact (since_cons_of_not (by simp [hup]) (by simp [hw u hu])).trans hat
    | gap => exact absurd hG (h.ne_gap ht hu)

end CondInv

/-! ## The routines -/

def condDiscipline (b n : Nat) : Discipline ops Machine Thread Choice WaitPos where
  Inv := CondInv b n
  Allowed m t o x := o = .setLevel .on → awaitsSignal b n t m.trace = true → t ∉ m.queue (.user b) →
    x.timeSlice = true → ∀ m', m.handle x.interrupts = some m' → m'.readyList = []
  Legal _ := True

section routines
variable {b n : Nat} {t : Thread} {g : WaitPos}

theorem cond_resting {α : Type} {prog : Prog α} (hp : prog.Uses fun o : Op => ¬ o.touches .calls) :
    platform.Safe (condDiscipline b n) t prog (fun _ g' => g' = .resting) .resting :=
  Safe.of_uses (hp.mono fun _ ho => ⟨trivial, fun _ _ _ _ hI hG he =>
    CondInv.exec hI he ho (.inl hG)⟩)

theorem cond_called {α : Type} {prog : Prog α}
    (hp : prog.Uses fun o : Op => ¬ o.touches .calls ∧ o ≠ .giveValue (.lock (.user n))) :
    platform.Safe (condDiscipline b n) t prog (fun _ g' => g' = .called) .called :=
  Safe.of_uses (hp.mono fun _ ho => ⟨trivial, fun _ _ _ _ hI hG he =>
    CondInv.exec hI he ho.1 (.inr ⟨hG, ho.2⟩)⟩)

theorem cond_setLevel_gap (now : IntStatus) :
    platform.Safe (condDiscipline b n) t (setLevel now) (fun _ g' => g' = .gap) .gap := by
  have hgap : ∀ (G : Thread → WaitPos) (m m' : Machine), CondInv b n G m → G t = .gap →
    Frame Obj.Shared m m' →
      m'.currentThread = m.currentThread → m'.asleep = m.asleep → WaitAt b n m' t .gap := by
    intro G m m' hI hg hf hcur ha
    obtain ⟨hw, hq, ht, has⟩ : WaitAt b n m t .gap := hg ▸ hI t
    refine ⟨?_, ?_, hcur.trans ht, ha.trans has⟩
    · rw [awaitsSignal, inWait_of_frame hf not_false not_false,
        releasedIn_of_frame hf not_false not_false]
      exact hw
    · rw [hf.queue _ not_false]
      exact hq
  refine ⟨trivial, fun G m x hI hg hA => ⟨fun r m' he => ⟨.gap, ?_, rfl⟩, fun m' he => ?_⟩⟩
  · refine CondInv.step hI he id ?_
    obtain ⟨-, -, he⟩ := exec_eq_some he
    obtain ⟨m₁, h₁, rfl⟩ | rfl := Machine.setLevel_done he
    · have hcur := Machine.handle_currentThread h₁
      have ha := Machine.handle_asleep h₁
      exact hgap G m _ hI hg ((handle_frame h₁).trans (level_frame m₁ .on)) hcur ha
    · exact hgap G m _ hI hg (level_frame m now) rfl rfl
  · have hstep := CondInv.step (p := .gap) hI he id ?_
    · rwa [← hg, Function.update_eq_self] at hstep
    · obtain ⟨-, -, he⟩ := exec_eq_some he
      obtain ⟨m₁, h₁, hslice, rfl⟩ := Machine.setLevel_again he
      obtain ⟨hw, hq, -, -⟩ : WaitAt b n m t .gap := hg ▸ hI t
      -- there is nobody else to run
      have hready := hA (by rw [Machine.on_of_setLevel_again he]) hw hq hslice m₁ h₁
      have hyield : m₁.toSched.yield = m₁.toSched := by
        rw [Sched.yield, hready]
      have hcur := Machine.handle_currentThread h₁
      have ha := Machine.handle_asleep h₁
      rw [hyield]
      exact hgap G m _ hI hg ((handle_frame h₁).trans (level_frame m₁ .off)) hcur ha

theorem cond_setLevel (now : IntStatus) :
    platform.Safe (condDiscipline b n) t (setLevel now) (fun _ g' => g' = g) g := by
  cases g with
  | resting => exact cond_resting ⟨id, fun _ => trivial⟩
  | called => exact cond_called ⟨⟨id, Op.noConfusion⟩, fun _ => trivial⟩
  | gap => exact cond_setLevel_gap now

/-- After the `V` the thread is in the gap, unless nobody has to wake it. -/
theorem cond_v :
    platform.Safe (condDiscipline b n) t (Semaphore.v (.lock (.user n)))
      (fun _ _ => True) .called := by
  refine safe_v (fun now _ _ => cond_setLevel now)
    (safe_once rfl trivial fun G m x r m' hI hg _ ht ha he => ?_)
  have hexec := exec_of_execute ht ha he
  cases he
  by_cases hr : Rests b n (m.toSched.up (.lock (.user n)) (some m.currentThread)) t
  · exact ⟨.resting, CondInv.step hI hexec Obj.noConfusion hr, trivial⟩
  · rw [Rests, not_or] at hr
    have hrel : releasedIn b n t (m.toSched.up (.lock (.user n))
      (some m.currentThread)).trace = true :=
      (since_up (by simp) (by simp)).trans (since_cons_on (by simp [ht]))
    refine ⟨.gap, CondInv.step hI hexec Obj.noConfusion ⟨?_, hr.1, ?_, ?_⟩, trivial⟩
    · rw [awaitsSignal, Bool.and_eq_true]
      exact ⟨eq_true_of_ne_false hr.2, hrel⟩
    · exact (Machine.up_currentThread ..).trans ht
    · exact (Machine.up_asleep ..).trans ha

theorem cond_setHolder (l : LockId) (v : Option Thread) :
    platform.Safe (condDiscipline b n) t (setHolder l v) (fun _ g' => g' = g) g := by
  cases g with
  | resting => exact cond_resting ⟨Obj.noConfusion, fun _ => trivial⟩
  | called => exact cond_called ⟨⟨Obj.noConfusion, Op.noConfusion⟩, fun _ => trivial⟩
  | gap =>
    refine safe_once rfl trivial fun G m x r m' hI hg _ ht ha he => ?_
    have hexec := exec_of_execute ht ha he
    have hat : WaitAt b n m t .gap := hg ▸ hI t
    cases he
    exact ⟨.gap, CondInv.step hI hexec Obj.noConfusion hat, rfl⟩

theorem cond_release :
    platform.Safe (condDiscipline b n) t (Lock.release (.user n)) (fun _ _ => True) .called := by
  have hheld : platform.Safe (condDiscipline b n) t (Lock.isHeldByCurrentThread (.user n))
      (fun _ g' => g' = .called) .called :=
    cond_called ⟨⟨id, Op.noConfusion⟩, fun _ => ⟨⟨id, Op.noConfusion⟩, fun _ => trivial⟩⟩
  refine safe_release .called (hheld.mono fun held _ hg => ?_) cond_v fun _ _ =>
    (cond_setHolder _ none).mono fun _ _ _ => trivial
  cases held with
  | false => trivial
  | true => exact hg

theorem cond_sleepOn :
    platform.Safe (condDiscipline b n) t (sleepOn (.user b)) (fun _ g' => g' = .resting) g := by
  refine safe_once rfl trivial fun G m x r m' hI _ _ ht ha he => ?_
  have hexec := exec_of_execute ht ha he
  refine ⟨.resting, CondInv.step hI hexec Obj.noConfusion (.inl ?_), rfl⟩
  simp only [Machine.execute] at he
  split at he
  · cases he
    simp [Effect.state, Sched.wait, ht]
  · cases he

theorem cond_wait :
    platform.Safe (condDiscipline b n) t (Condition.wait (.user b) (.user n))
      (fun _ g' => g' = .resting) .called := by
  refine cond_release.bind fun _ g₁ _ => (cond_setLevel (g := g₁) .off).bind fun old g₂ _ => ?_
  refine cond_sleepOn.bind fun _ _ hg => (cond_setLevel old).bind fun _ _ hg' => ?_
  subst hg hg'
  refine cond_resting ((within_acquire (T := fun x => x ≠ .calls) (by simp) (by simp)).mono
    fun o ho => ?_)
  exact not_calls_of_within ho fun h => h rfl

theorem cond_call (c : Call) :
    platform.Safe (condDiscipline b n) t c.prog (fun _ g' => g' = .resting) .resting := by
  have hleave : ∀ c, platform.Safe (condDiscipline b n) t (leave c)
    (fun _ g' => g' = .resting) .resting := by
    refine fun c => safe_once rfl trivial fun G m x r m' hI hg _ ht _ he => ?_
    cases he
    have hat : Rests b n m.toSched t := by
      have hI := hI t
      rwa [hg] at hI
    exact ⟨.resting, CondInv.note hI ht rfl (by simp)
      (hat.imp_right (since_cons_of_not rfl rfl).trans), rfl⟩
  by_cases hc : c = .wait b n
  · subst hc
    have henter : platform.Safe (condDiscipline b n) t (enter (.wait b n))
      (fun _ g' => g' = .called) .resting := by
      refine safe_once rfl trivial fun G m x r m' hI hg _ ht _ he => ?_
      cases he
      refine ⟨.called, CondInv.note hI ht rfl
        (fun u hu => ?_) (since_cons_off rfl (by simp [ht])), rfl⟩
      simp [ht, Ne.symm hu]
    exact safe_prog henter cond_wait (hleave _)
  · have henter : platform.Safe (condDiscipline b n) t (enter c)
      (fun _ g' => g' = .resting) .resting := by
      refine safe_once rfl trivial fun G m x r m' hI hg _ ht _ he => ?_
      cases he
      have hat : Rests b n m.toSched t := by
        have hI := hI t
        rwa [hg] at hI
      refine ⟨.resting, CondInv.note hI ht rfl (fun u hu => ?_) (hat.imp_right
        (since_cons_of_not ?_ rfl).trans), rfl⟩
      · simp [hc]
      · simp [hc]
    refine safe_prog henter (cond_resting (c.body_within.mono fun o ho => ?_)) (hleave c)
    exact not_calls_of_within ho c.not_touches_calls

end routines

variable {b n : Nat} {user : Nat → Int} {client : Thread → Client}
  {c : Tasks ops Machine Unit Thread}

/-- In a run in which no time slice ends in the gap, a thread that waits is on the queue
whenever another thread runs, and the `Signal` of another thread finds somebody there. -/
theorem wait_not_lost (h : platform.Run (KeepsTurn b n) (start user client) c) {t : Thread}
    (ht : awaitsSignal b n t c.state.trace = true) :
    (t ∈ c.state.queue (.user b) ∨ c.state.currentThread = t ∧ c.state.asleep = false) ∧
    ∀ u k, c.prog u = .call (.wakeOne (.user b)) k → c.state.currentThread = u → u ≠ t →
      c.state.queue (.user b) ≠ [] := by
  have hmeets : platform.Run (condDiscipline b n).Meets (start user client) c := by
    refine h.mono fun c' mv hmv => ?_
    cases mv with
    | env x => trivial
    | act t x =>
      intro o k hk ho
      subst ho
      exact hmv k hk
  obtain ⟨G, hI, -⟩ := exists_ghost (D := condDiscipline b n) (R := fun _ _ g => g = .resting)
    (g := .resting)
    (fun _ => .inr rfl) (fun G x m m' hI he => CondInv.env hI he) (fun t => cond_setLevel .on)
    (fun t o _ _ g _ hg => by
      subst hg
      exact cond_call o)
    (fun t _ g hg => by
      subst hg
      exact (cond_call .finish).mono fun _ _ _ => trivial)
    (fun _ => rfl) (fun t => follows_any (client t)) hmeets
  have hat : t ∈ c.state.queue (.user b) ∨ c.state.currentThread = t ∧ c.state.asleep = false := by
    have hIt : WaitAt b n c.state t (G t) := hI t
    rw [awaitsSignal, Bool.and_eq_true] at ht
    cases hG : G t with
    | resting =>
      rw [hG] at hIt
      exact .inl (hIt.resolve_right (by simp [ht.1]))
    | called =>
      rw [hG] at hIt
      cases ht.2.symm.trans hIt
    | gap =>
      rw [hG] at hIt
      exact .inr hIt.2.2
  refine ⟨hat, fun u k _ hu hut => ?_⟩
  exact List.ne_nil_of_mem (hat.resolve_right fun hcur => hut (hu.symm.trans hcur.1))

def noSlice (_ : Tasks ops Machine Unit Thread) : Move Thread Choice → Bool
  | .act _ x => !x.timeSlice
  | .env _ => true

/-- The main thread sleeps in `Wait`. -/
theorem wait_not_lost_asleep :
    ∃ c, platform.Run (KeepsTurn 0 0) (start (fun _ => 0) fun _ => do
        perform (S := calls) (.acquire 0)
        perform (S := calls) (.wait 0 0)) c ∧
      awaitsSignal 0 0 0 c.state.trace = true ∧ c.state.asleep = true ∧
        0 ∈ c.state.queue (.user 0) := by
  have hok : ∀ c mv, noSlice c mv = true → KeepsTurn 0 0 c mv := by
    intro c mv hmv
    cases mv with
    | env x => trivial
    | act t x =>
      intro k _ _ _ hslice
      simp [noSlice, hslice] at hmv
  have h := run_of_replayIf (P := platform) (c := start (fun _ => 0) fun _ => do
    perform (S := calls) (.acquire 0)
    perform (S := calls) (.wait 0 0)) hok (List.replicate 16 (.act 0 ⟨[], false, 0⟩)) rfl
  have hwait := (wait_not_lost h (t := 0) rfl).1
  exact ⟨_, h, rfl, rfl, hwait.resolve_right fun h => Bool.noConfusion h.2⟩

def waitClient : Thread → Client
  | 0 => do
    perform (S := calls) (.fork 1)
    perform (S := calls) (.acquire 0)
    perform (S := calls) (.wait 0 0)
  | 1 => do
    perform (S := calls) (.acquire 0)
    perform (S := calls) (.signal 0 0)
  | _ => pure ()

/-- The main thread has released the lock in `Wait` when its time slice ends. The other thread
acquires the lock, and its `Signal` is about to find the queue empty. -/
theorem wait_lost : ∃ c, platform.Run (fun _ _ => True) (start (fun _ => 0) waitClient) c ∧
    awaitsSignal 0 0 0 c.state.trace = true ∧ between (.user 0) 1 c.state.trace = true ∧
    c.state.currentThread = 1 ∧ (∃ k, c.prog 1 = .call (.wakeOne (.user 0)) k) ∧
    c.state.queue (.user 0) = [] :=
  ⟨_, run_of_replay (List.replicate 17 (.act 0 ⟨[], false, 0⟩) ++ .act 0 ⟨[], true, 0⟩ ::
    List.replicate 10 (.act 1 ⟨[], false, 0⟩)) rfl, rfl, rfl, rfl, ⟨_, rfl⟩, rfl⟩

end Nachos.Threads
