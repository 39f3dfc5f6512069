import Nachos.Threads.Lock

/-! The field `threadHoldTheLock` for threads that call `Acquire` and `Release` in turn.
`Release` clears the field after its `V` has returned. By then another thread may have been
through `Acquire`, and is no longer recorded; its `Release` then keeps the permit. -/

namespace Nachos.Threads
open Lib Program Platform

/-- `Acquire` and `Release` of the lock take turns, and nobody waits with it. The state is
whether the lock is acquired. -/
def pairs (n : Nat) (held : Bool) : Call → Option Bool
  | .acquire n' => if n' = n then (if held then none else some true) else some held
  | .release n' => if n' = n then (if held then some false else none) else some held
  | .wait _ n' => if n' = n then none else some held
  | _ => some held

/-- No thread stores `NULL` in `threadHoldTheLock` while another thread is between a returned
`Acquire` and its next call of `Release`. -/
def ClearsOwn (n : Nat) (c : Tasks ops Machine Unit Thread) : Move Thread Choice → Prop
  | .act t _ => ∀ k, c.prog t = .call (.setHolder (.user n) none) k →
    ∀ u ≠ t, between (.user n) u c.state.trace = false
  | .env _ => True

/-- Thread `t` is between its `P` and its `V`: it has done the `P`, and since then neither the
`V` nor the whole `Release`. -/
def betweenPV (n : Nat) (t : Thread) : List Event → Bool :=
  since (fun e => e = .down (.lock (.user n)) t)
    fun e => e = .up (.lock (.user n)) (some t) ∨ e = .leave t (.release n)

/-- Thread `t` has done a `V` of the lock since its last call of `Release`. -/
def gaveBack (n : Nat) (t : Thread) : List Event → Bool :=
  since (fun e => e = .up (.lock (.user n)) (some t)) fun e => e = .enter t (.release n)

/-- Every `Release` that has returned did its `V`. -/
def ReleasesGiveBack (n : Nat) : List Event → Prop
  | [] => True
  | e :: h => (∀ t, e = .leave t (.release n) → gaveBack n t h = true) ∧ ReleasesGiveBack n h

inductive HolderPos where
  | out
  /-- `P` has taken the permit. -/
  | got
  /-- `Acquire` has set the field, and is about to return. -/
  | recorded
  | inside
  /-- `Release` is called, and has not looked at the field. -/
  | entered
  | checked
  /-- `V` has given the permit back. -/
  | freed
  /-- `Release` has cleared the field, and is about to return. -/
  | cleared
  deriving DecidableEq

namespace HolderPos

def owns : HolderPos → Bool
  | .got | .recorded | .inside | .entered | .checked => true
  | _ => false

def relies : HolderPos → Bool
  | .recorded | .inside | .entered => true
  | _ => false

def pinned : HolderPos → Bool
  | .recorded | .entered => true
  | _ => false

def gave : HolderPos → Bool
  | .freed | .cleared => true
  | _ => false

end HolderPos

structure HolderAt (n : Nat) (m : Machine) (t : Thread) (p : HolderPos) : Prop where
  permit : p.owns = true → betweenPV n t m.trace = true
  recorded : p.relies = true → m.threadHoldTheLock (.user n) = some t
  turn : p.pinned = true → m.currentThread = t ∧ m.asleep = false
  inside : between (.user n) t m.trace = true ↔ p = .inside
  gave : p.gave = true → gaveBack n t m.trace = true

structure HolderInv (n : Nat) (G : Thread → HolderPos) (m : Machine) : Prop where
  place : ∀ t, HolderAt n m t (G t)
  owner : (m.semaphore (.lock (.user n))).value = 0 → ∃ t, (G t).owns = true
  releases : ReleasesGiveBack n m.trace

section positions
variable {n : Nat} {t u : Thread} {T : Obj → Prop} {k : Sched} {m m' : Machine} {h : List Event}

theorem holds_of_betweenPV (hb : betweenPV n t h = true) : holds (.user n) t h = true := by
  induction h with
  | nil => cases hb
  | cons e h ih =>
    simp only [betweenPV, holds, since, Bool.or_eq_true, Bool.and_eq_true, Bool.not_eq_true',
      decide_eq_true_eq, decide_eq_false_iff_not, not_or] at hb ⊢
    exact hb.imp_right fun hb => ⟨hb.1.1, ih hb.2⟩

theorem betweenPV_of_frame (hf : Frame T m m') (hs : ¬ T (.semaphore (.lock (.user n))))
    (hc : ¬ T .calls)
    (t : Thread) : betweenPV n t m'.trace = betweenPV n t m.trace := by
  refine hf.since_eq fun e he => ?_
  simp only [decide_eq_true_eq] at he
  rcases he with rfl | rfl | rfl
  · exact ⟨_, rfl, hs⟩
  · exact ⟨_, rfl, hs⟩
  · exact ⟨_, rfl, hc⟩

theorem gaveBack_of_frame (hf : Frame T m m') (hs : ¬ T (.semaphore (.lock (.user n))))
    (hc : ¬ T .calls)
    (t : Thread) : gaveBack n t m'.trace = gaveBack n t m.trace := by
  refine hf.since_eq fun e he => ?_
  simp only [decide_eq_true_eq] at he
  rcases he with rfl | rfl
  · exact ⟨_, rfl, hs⟩
  · exact ⟨_, rfl, hc⟩

theorem releasesGiveBack_of_frame (hf : Frame T m m') (hc : ¬ T .calls) :
    ReleasesGiveBack n m'.trace ↔ ReleasesGiveBack n m.trace := by
  have heq : ReleasesGiveBack n m'.trace = ReleasesGiveBack n m.trace :=
    hf.trace_eq fun e h he => by
    refine propext (and_iff_right fun t ht => absurd (he .calls ?_) hc)
    rw [ht]
    rfl
  rw [heq]

end positions

section invariant
variable {n : Nat} {t u : Thread} {p : HolderPos} {G : Thread → HolderPos} {m m' : Machine}

theorem HolderAt.congr (h : HolderAt n m u p) (hp : p.pinned = false)
    (hl : p.relies = true → m'.threadHoldTheLock (.user n) = m.threadHoldTheLock (.user n))
    (hpv : betweenPV n u m'.trace = betweenPV n u m.trace)
    (hb : between (.user n) u m'.trace = between (.user n) u m.trace)
    (hg : gaveBack n u m'.trace = gaveBack n u m.trace) : HolderAt n m' u p where
  permit h₁ := hpv.trans (h.permit h₁)
  recorded h₁ := (hl h₁).trans (h.recorded h₁)
  turn h₁ := by simp [hp] at h₁
  inside := hb ▸ h.inside
  gave h₁ := hg.trans (h.gave h₁)

namespace HolderInv

theorem not_pinned (h : HolderInv n G m) (ht : m.currentThread = t) (hu : u ≠ t) :
    (G u).pinned = false := by
  refine Bool.eq_false_of_not_eq_true fun hp => hu ?_
  rw [← ((h.place u).turn hp).1, ht]

theorem congr (h : HolderInv n G m) (hp : ∀ u, (G u).pinned = false)
    (hv : (m'.semaphore (.lock (.user n))).value = (m.semaphore (.lock (.user n))).value)
    (hl : m'.threadHoldTheLock (.user n) = m.threadHoldTheLock (.user n))
    (hpv : ∀ u, betweenPV n u m'.trace = betweenPV n u m.trace)
    (hb : ∀ u, between (.user n) u m'.trace = between (.user n) u m.trace)
    (hg : ∀ u, gaveBack n u m'.trace = gaveBack n u m.trace)
    (hr : ReleasesGiveBack n m'.trace ↔ ReleasesGiveBack n m.trace) : HolderInv n G m' where
  place u := (h.place u).congr (hp u) (fun _ => hl) (hpv u) (hb u) (hg u)
  owner h₀ := h.owner (hv.symm.trans h₀)
  releases := hr.mpr h.releases

theorem frame {T : Obj → Prop} (h : HolderInv n G m) (hp : ∀ u, (G u).pinned = false)
    (hf : Frame T m m') (hT : Apart T (lockObjs (.user n))) : HolderInv n G m' := by
  obtain ⟨hs, hl, hc⟩ := apart_lockObjs.mp hT
  exact h.congr hp (hf.value _ hs) (hf.holder _ hl) (betweenPV_of_frame hf hs hc)
    (between_of_frame hf hc) (gaveBack_of_frame hf hs hc) (releasesGiveBack_of_frame hf hc)

theorem step (h : HolderInv n G m) (ht : m.currentThread = t) (hat : HolderAt n m' t p)
    (hother : ∀ u, u ≠ t → HolderAt n m u (G u) → (G u).pinned = false → HolderAt n m' u (G u))
    (howner : (m'.semaphore (.lock (.user n))).value = 0 →
      p.owns = true ∨ (m.semaphore (.lock (.user n))).value = 0 ∧ (G t).owns = false)
    (hr : ReleasesGiveBack n m'.trace) : HolderInv n (Function.update G t p) m' where
  place u := by
    rcases eq_or_ne u t with rfl | hu
    · rwa [Function.update_self]
    · rw [Function.update_of_ne hu]
      exact hother u hu (h.place u) (h.not_pinned ht hu)
  owner h₀ := by
    rcases howner h₀ with hp | ⟨h₁, hn⟩
    · exact ⟨t, by rwa [Function.update_self]⟩
    · obtain ⟨u, hu⟩ := h.owner h₁
      have hut : u ≠ t := by
        rintro rfl
        simp [hn] at hu
      exact ⟨u, by rwa [Function.update_of_ne hut]⟩
  releases := hr

end HolderInv
end invariant

/-! ## The routines -/

def holderDiscipline (n : Nat) : Discipline ops Machine Thread Choice HolderPos where
  Inv := HolderInv n
  Allowed m t o _ := Exclusive (.user n) m ∧
    (o = .setHolder (.user n) none → ∀ u ≠ t, between (.user n) u m.trace = false)
  Legal _ := True

section routines
variable {n : Nat} {t : Thread} {g : HolderPos}

theorem HolderInv.none_pinned {G : Thread → HolderPos} {m : Machine} (h : HolderInv n G m)
    (ht : m.currentThread = t) (hg : (G t).pinned = false) (u : Thread) : (G u).pinned = false := by
  rcases eq_or_ne u t with rfl | hu
  · exact hg
  · exact h.not_pinned ht hu

theorem holder_within {α : Type} {T : Obj → Prop} {prog : Prog α} (hp : prog.Uses (Op.Within T))
    (hT : Apart T (lockObjs (.user n))) (hg : g.pinned = false) :
    platform.Safe (holderDiscipline n) t prog (fun _ g' => g' = g) g := by
  refine Safe.of_uses (hp.mono fun o ho => ⟨trivial, fun G m x e hI hG he => ?_⟩)
  have hI : HolderInv n G m := hI
  exact hI.frame (hI.none_pinned (exec_eq_some he).1 (hG ▸ hg)) (exec_within ho he)
    (hT.or_shared apart_shared_lockObjs)

theorem holder_setLevel (now : IntStatus) (hg : g.pinned = false) :
    platform.Safe (holderDiscipline n) t (setLevel now) (fun _ g' => g' = g) g :=
  holder_within (T := fun _ => False) (within_setLevel now) apart_false hg

theorem holder_p :
    platform.Safe (holderDiscipline n) t (Semaphore.p (.lock (.user n)))
      (fun _ g' => g' = .got) .out := by
  refine safe_p ?_ (safe_takeValue trivial (fun G m hI hg ht _ _ => ?_)
    fun G m x hI hg _ ht _ hv => ?_)
  · rintro now _ (rfl | rfl) <;> exact holder_setLevel now rfl
  · have hI : HolderInv n G m := hI
    refine hI.congr (hI.none_pinned ht (by rw [hg]; rfl)) ?_ rfl
      (fun _ => since_cons_of_not rfl rfl)
      (fun _ => since_cons_of_not rfl rfl) (fun _ => since_cons_of_not rfl rfl)
        (and_iff_right (by simp))
    simp [Sched.park]
  · have hI : HolderInv n G m := hI
    have hout := hI.place t
    rw [hg] at hout
    refine ⟨.got, hI.step ht ?_ (fun u hu hat hp => ?_)
      (fun _ => .inl rfl) ⟨by simp, hI.releases⟩, rfl⟩
    · exact {
        permit := fun _ => since_cons_on (by simp [ht])
        recorded := Bool.noConfusion
        turn := Bool.noConfusion
        inside := hout.inside.trans (by simp)
        gave := Bool.noConfusion }
    · refine hat.congr hp (fun _ => rfl) (since_cons_of_not ?_ rfl) (since_cons_of_not rfl rfl)
        (since_cons_of_not rfl rfl)
      simp [ht, Ne.symm hu]

theorem holder_acquire :
    platform.Safe (holderDiscipline n) t (Lock.acquire (.user n))
      (fun _ g' => g' = .recorded) .out := by
  refine safe_acquire trivial holder_p
    (safe_once rfl trivial fun G m x r m' hI hg hA ht ha he => ?_)
  cases he
  have hI : HolderInv n G m := hI
  have hgot := hI.place t
  rw [hg] at hgot
  refine ⟨.recorded, hI.step ht ?_ (fun v hv hat hp => ?_) (fun _ => .inl rfl) hI.releases, rfl⟩
  · exact {
      permit := fun _ => hgot.permit rfl
      recorded := fun _ => Function.update_self ..
      turn := fun _ => ⟨ht, ha⟩
      inside := hgot.inside.trans (by simp)
      gave := Bool.noConfusion }
  · refine hat.congr hp (fun hrel => ?_) rfl rfl rfl
    -- nobody else has the permit
    have hown : (G v).owns = true := by
      cases hGv : G v <;> simp_all [HolderPos.owns, HolderPos.relies]
    have hvt := hA.1.unique v t (holds_of_betweenPV (hat.permit hown))
      (holds_of_betweenPV (hgot.permit rfl))
    exact absurd hvt hv

theorem holder_isHeldByCurrentThread :
    platform.Safe (holderDiscipline n) t (Lock.isHeldByCurrentThread (.user n))
      (fun b g' => if b then g' = .checked else g' = .cleared) .entered := by
  refine safe_isHeldByCurrentThread trivial (safe_once rfl trivial
    fun G m x r m' hI hg _ ht _ he => ?_)
  cases he
  have hI : HolderInv n G m := hI
  have hat := hI.place t
  rw [hg] at hat
  refine ⟨.checked, hI.step ht ?_ (fun _ _ hat _ => hat) (fun _ => .inl rfl) hI.releases, ?_⟩
  · exact {
      permit := fun _ => hat.permit rfl
      recorded := Bool.noConfusion
      turn := Bool.noConfusion
      inside := hat.inside.trans (by simp)
      gave := Bool.noConfusion }
  · simp [hat.recorded rfl]

theorem holder_v :
    platform.Safe (holderDiscipline n) t (Semaphore.v (.lock (.user n)))
      (fun _ g' => g' = .freed) .checked := by
  refine safe_v ?_ (safe_once rfl trivial fun G m x r m' hI hg hA ht _ he => ?_)
  · rintro now _ (rfl | rfl) <;> exact holder_setLevel now rfl
  cases he
  have hI : HolderInv n G m := hI
  have hat := hI.place t
  rw [hg] at hat
  have hf := frame_up m (.lock (.user n)) (some m.currentThread)
  have hb := between_of_frame (l := .user n) hf (by simp)
  refine ⟨.freed, hI.step ht ?_ (fun u hu hat hp => ?_) (fun h₀ => ?_) ?_, rfl⟩
  · exact {
      permit := Bool.noConfusion
      recorded := Bool.noConfusion
      turn := Bool.noConfusion
      inside := by
        rw [hb]
        exact hat.inside.trans (by simp)
      gave := fun _ => (since_up (by simp) (by simp)).trans (since_cons_on (by simp [ht])) }
  · refine hat.congr hp (fun _ => rfl) ((since_up (by simp) (by simp)).trans
      (since_cons_of_not rfl ?_)) (hb u)
      ((since_up (by simp) (by simp)).trans (since_cons_of_not ?_ rfl))
    · simp [ht, Ne.symm hu]
    · simp [ht, Ne.symm hu]
  · have hval : (m.semaphore (.lock (.user n))).value + 1 = 0 :=
      (Sched.value_up_self (some m.currentThread)).symm.trans h₀
    have := hA.1.value
    omega
  · exact (releasesGiveBack_of_frame hf (by simp)).mpr hI.releases

theorem holder_release :
    platform.Safe (holderDiscipline n) t (Lock.release (.user n))
      (fun _ g' => g' = .cleared) .entered := by
  refine safe_release .checked holder_isHeldByCurrentThread holder_v fun q hq =>
    safe_once rfl trivial fun G m x r m' hI hg hA ht _ he => ?_
  cases he
  subst hq
  have hI : HolderInv n G m := hI
  have hat := hI.place t
  rw [hg] at hat
  refine ⟨.cleared, hI.step ht ?_ (fun u hu hat hp => ?_) (fun h₀ => .inr ⟨h₀, by rw [hg]; rfl⟩)
    hI.releases, rfl⟩
  · exact {
      permit := Bool.noConfusion
      recorded := Bool.noConfusion
      turn := Bool.noConfusion
      inside := hat.inside.trans (by simp)
      gave := fun _ => hat.gave rfl }
  · refine hat.congr hp (fun hrel => ?_) rfl rfl rfl
    -- the other thread would be between `Acquire` and `Release`
    have hin : G u = .inside := by
      cases hGu : G u <;> simp_all [HolderPos.relies, HolderPos.pinned]
    have hb := hat.inside.mpr hin
    rw [hA.2 rfl u hu] at hb
    cases hb

theorem holder_enter {c : Call} (hg : g.pinned = false) (hc : c ≠ .release n)
    (hr : callsRelease (.user n) t (.enter t c) = false) :
    platform.Safe (holderDiscipline n) t (enter c) (fun _ g' => g' = g) g := by
  refine safe_once rfl trivial fun G m x r m' hI hG _ ht _ he => ?_
  cases he
  have hI : HolderInv n G m := hI
  refine ⟨g, ?_, rfl⟩
  rw [← hG, Function.update_eq_self, ht]
  exact hI.congr (hI.none_pinned ht (hG ▸ hg)) rfl rfl (fun _ => since_cons_of_not rfl rfl)
    (between_enter hr)
    (fun u => since_cons_of_not rfl (by simp [hc])) (and_iff_right (by simp))

theorem holder_leave {c : Call} (hg : g.pinned = false) (hc : c ≠ .release n)
    (hr : returnsHolding (.user n) t (.leave t c) = false) :
    platform.Safe (holderDiscipline n) t (leave c) (fun _ g' => g' = g) g := by
  refine safe_once rfl trivial fun G m x r m' hI hG _ ht _ he => ?_
  cases he
  have hI : HolderInv n G m := hI
  refine ⟨g, ?_, rfl⟩
  rw [← hG, Function.update_eq_self, ht]
  exact hI.congr (hI.none_pinned ht (hG ▸ hg)) rfl rfl
    (fun u => since_cons_of_not rfl (by simp [hc]))
    (between_leave hr) (fun _ => since_cons_of_not rfl rfl) (and_iff_right fun u hu => by simp_all)

theorem holder_leave_acquire :
    platform.Safe (holderDiscipline n) t (leave (.acquire n))
      (fun _ g' => g' = .inside) .recorded := by
  refine safe_once rfl trivial fun G m x r m' hI hg _ ht _ he => ?_
  cases he
  have hI : HolderInv n G m := hI
  have hat := hI.place t
  rw [hg] at hat
  refine ⟨.inside, hI.step ht ?_ (fun u hu hat hp => ?_)
    (fun _ => .inl rfl) ⟨by simp, hI.releases⟩, rfl⟩
  · exact {
      permit := fun _ => (since_cons_of_not rfl (by simp)).trans (hat.permit rfl)
      recorded := fun _ => hat.recorded rfl
      turn := Bool.noConfusion
      inside := iff_of_true (since_cons_on (by simp [returnsHolding, ht])) rfl
      gave := Bool.noConfusion }
  · exact hat.congr hp (fun _ => rfl) (since_cons_of_not rfl (by simp))
      (between_leave_of_ne (ht ▸ hu))
      (since_cons_of_not rfl rfl)

theorem holder_enter_release :
    platform.Safe (holderDiscipline n) t (enter (.release n))
      (fun _ g' => g' = .entered) .inside := by
  refine safe_once rfl trivial fun G m x r m' hI hg _ ht ha he => ?_
  cases he
  have hI : HolderInv n G m := hI
  have hat := hI.place t
  rw [hg] at hat
  refine ⟨.entered, hI.step ht ?_ (fun u hu hat hp => ?_)
    (fun _ => .inl rfl) ⟨by simp, hI.releases⟩, rfl⟩
  · have hoff : between (.user n) t (.enter m.currentThread (.release n) :: m.trace) = false :=
      since_cons_off rfl (by simp [callsRelease, ht])
    exact {
      permit := fun _ => (since_cons_of_not rfl rfl).trans (hat.permit rfl)
      recorded := fun _ => hat.recorded rfl
      turn := fun _ => ⟨ht, ha⟩
      inside := iff_of_false (fun h => by cases hoff.symm.trans h) (by simp)
      gave := Bool.noConfusion }
  · exact hat.congr hp (fun _ => rfl) (since_cons_of_not rfl rfl) (between_enter_of_ne (ht ▸ hu))
      (since_cons_of_not rfl (by simp [ht, Ne.symm hu]))

theorem holder_leave_release :
    platform.Safe (holderDiscipline n) t (leave (.release n)) (fun _ g' => g' = .out) .cleared := by
  refine safe_once rfl trivial fun G m x r m' hI hg _ ht _ he => ?_
  cases he
  have hI : HolderInv n G m := hI
  have hat := hI.place t
  rw [hg] at hat
  refine ⟨.out, hI.step ht ?_ (fun u hu hat hp => ?_) (fun h₀ => .inr ⟨h₀, by rw [hg]; rfl⟩)
    ⟨fun u hu => ?_, hI.releases⟩, rfl⟩
  · have hb : between (.user n) t (.leave m.currentThread (.release n) :: m.trace) = between
      (.user n) t m.trace :=
      since_cons_of_not rfl rfl
    exact {
      permit := Bool.noConfusion
      recorded := Bool.noConfusion
      turn := Bool.noConfusion
      inside := iff_of_false (fun h => by cases hat.inside.mp (hb.symm.trans h)) (by simp)
      gave := Bool.noConfusion }
  · exact hat.congr hp (fun _ => rfl) (since_cons_of_not rfl (by simp [ht, Ne.symm hu]))
      (since_cons_of_not rfl rfl) (since_cons_of_not rfl rfl)
  · cases hu
    rw [ht]
    exact hat.gave rfl

theorem pairs_finish (held : Bool) : pairs n held .finish = some held := rfl

def HolderPos.resting (held : Bool) : HolderPos := if held then .inside else .out

theorem holder_call {c : Call} {held held' : Bool} (hc : pairs n held c = some held') :
    platform.Safe (holderDiscipline n) t c.prog (fun _ g' => g' = .resting held')
      (.resting held) := by
  by_cases ht : c.touches (.holder (.user n))
  · obtain rfl | rfl | ⟨b, rfl⟩ : c = .acquire n ∨ c = .release n ∨ ∃ b, c = .wait b n := by
      cases c <;> simp_all [Call.touches]
    · obtain ⟨rfl, rfl⟩ : held = false ∧ held' = true := by
        cases held <;> simp_all [pairs]
      exact safe_prog (holder_enter (c := .acquire n) rfl (by simp) rfl)
        holder_acquire holder_leave_acquire
    · obtain ⟨rfl, rfl⟩ : held = true ∧ held' = false := by
        cases held <;> simp_all [pairs]
      exact safe_prog holder_enter_release holder_release holder_leave_release
    · simp [pairs] at hc
  · obtain rfl : held = held' := by
      cases c with
      | acquire n' | release n' | wait b n' =>
        have hn : n' ≠ n := fun h => ht (by simp [Call.touches, h])
        simpa [pairs, hn] using hc
      | _ => exact Option.some.inj hc
    have hsem : ¬ c.touches (.semaphore (.lock (.user n))) := by
      cases c <;> simp_all [Call.touches]
    have hrel : c ≠ .release n := by
      rintro rfl
      simp [Call.touches] at ht
    have hpin : (HolderPos.resting held).pinned = false := by
      cases held <;> rfl
    have hnot := calls_of_not_touches (t := t) (u := t) ht
    have hapart := apart_lockObjs.mpr ⟨hsem, ht, c.not_touches_calls⟩
    exact safe_prog (holder_enter hpin hrel hnot.1) (holder_within c.body_within hapart hpin)
      (holder_leave hpin hrel hnot.2)

end routines

theorem HolderInv.initial (n : Nat) (config : NetConfig) (user : Nat → Int) :
    HolderInv n (fun _ => .out) ((Machine.initial (initialValue user)).named config) where
  place _ := ⟨nofun, nofun, nofun, iff_of_false nofun nofun, nofun⟩
  owner := nofun
  releases := trivial

variable {n : Nat} {user : Nat → Int} {client : Thread → Client} {c : Tasks ops Machine Unit Thread}

theorem holderInv_of_run (hclient : ∀ t, Follows (pairs n) false (client t))
    (h : platform.Run (ClearsOwn n) (start user client) c) : ∃ G, HolderInv n G c.state := by
  have hexcl : ∀ c', platform.Run (ClearsOwn n) (start user client) c' →
    Exclusive (.user n) c'.state :=
    fun c' h' => exclusive_of_run (.user n) (h'.mono fun _ _ _ => trivial)
  have hmeets : platform.Run (holderDiscipline n).Meets (start user client) c := by
    refine (h.strengthen hexcl).mono fun c' mv hmv => ?_
    cases mv with
    | env x => trivial
    | act t x =>
      intro o k hk
      refine ⟨hmv.2, fun ho => ?_⟩
      subst ho
      exact hmv.1 k hk
  obtain ⟨G, hI, -⟩ := exists_ghost (D := holderDiscipline n) (R := fun _ held g => g = .resting held)
    (HolderInv.initial n _ user)
    (fun G x m m' hI he => by
      have hI : HolderInv n G m := hI
      have hno : ∀ u, (G u).pinned = false := fun u => Bool.eq_false_of_not_eq_true fun hp => by
        cases ((hI.place u).turn hp).2.symm.trans (env_eq_some he).1
      obtain ⟨m₁, is, h₁, hf⟩ := env_frame he
      exact (hI.frame hno (handle_frame h₁) apart_shared_lockObjs).frame hno hf apart_false)
    (fun t => holder_setLevel .on rfl) (fun t o held held' g ho hg => hg ▸ holder_call ho)
    (fun t held g hg => hg ▸ (holder_call (c := .finish) (pairs_finish held)).mono
      fun _ _ _ => trivial)
    (fun _ => rfl) hclient hmeets
  exact ⟨G, hI⟩

/-- In a run in which nobody stores `NULL` over another thread's record, the thread that has the
lock is recorded, every `Release` does its `V`, and the lock is free or somebody is going to
free it. -/
theorem release_frees_lock (hclient : ∀ t, Follows (pairs n) false (client t))
    (h : platform.Run (ClearsOwn n) (start user client) c) :
    (∀ t, between (.user n) t c.state.trace = true → c.state.threadHoldTheLock (.user n) = some t) ∧
    ReleasesGiveBack n c.state.trace ∧
    ((c.state.semaphore (.lock (.user n))).value = 0 → ∃ t,
      betweenPV n t c.state.trace = true) := by
  obtain ⟨G, hI⟩ := holderInv_of_run hclient h
  refine ⟨fun t ht => ?_, hI.releases, fun h₀ => ?_⟩
  · have hin := (hI.place t).inside.mp ht
    exact (hI.place t).recorded (by rw [hin]; rfl)
  · obtain ⟨t, ht⟩ := hI.owner h₀
    exact ⟨t, (hI.place t).permit ht⟩

def storesNone (n : Nat) (c : Tasks ops Machine Unit Thread) : Move Thread Choice → Bool
  | .act t _ =>
    match c.prog t with
    | .call (.setHolder (.user n') none) _ => n' == n
    | _ => false
  | .env _ => false

/-- The main thread has acquired the lock. -/
theorem release_frees_lock_acquired :
    ∃ c, platform.Run (ClearsOwn 0) (start (fun _ => 0) fun _ => perform (S := calls) (.acquire 0))
      c ∧
      (c.state.semaphore (.lock (.user 0))).value = 0 ∧ c.state.threadHoldTheLock
        (.user 0) = some 0 ∧
      ∃ t, betweenPV 0 t c.state.trace = true := by
  have hok : ∀ c mv, (!storesNone 0 c mv) = true → ClearsOwn 0 c mv := by
    intro c mv hmv
    cases mv with
    | env x => trivial
    | act t x =>
      intro k hk
      simp [storesNone, hk] at hmv
  have h := run_of_replayIf (P := platform)
    (c := start (fun _ => 0) fun _ => perform (S := calls) (.acquire 0))
    hok (List.replicate 7 (.act 0 ⟨[], false, 0⟩)) rfl
  have hclient : Follows (pairs 0) false (perform (S := calls) (.acquire 0)) :=
    ⟨true, rfl, fun _ => trivial⟩
  have hlock := release_frees_lock (fun _ => hclient) h
  exact ⟨_, h, rfl, hlock.1 0 rfl, hlock.2.2 rfl⟩

def pairsClient : Thread → Client
  | 0 => do
    perform (S := calls) (.fork 1)
    perform (S := calls) (.acquire 0)
    perform (S := calls) (.release 0)
  | 1 => do
    perform (S := calls) (.acquire 0)
    perform (S := calls) .yield
    perform (S := calls) (.release 0)
  | _ => pure ()

/-- The main thread has done its `V` when its time slice ends, and stores `NULL` after the other
thread has acquired the lock. -/
theorem lock_stuck : (∀ t, Follows (pairs 0) false (pairsClient t)) ∧
    ∃ c c', platform.Run (fun _ _ => True) (start (fun _ => 0) pairsClient) c ∧
      between (.user 0) 1 c.state.trace = true ∧ c.state.threadHoldTheLock (.user 0) = none ∧
      platform.Run (fun _ _ => True) c c' ∧ (c'.state.semaphore (.lock (.user 0))).value = 0 ∧
      ∀ t, betweenPV 0 t c'.state.trace = false := by
  refine ⟨fun t => ?_, _, _, run_of_replay (List.replicate 17 (.act 0 ⟨[], false, 0⟩) ++
    .act 0 ⟨[], true, 0⟩ :: List.replicate 11 (.act 1 ⟨[], false, 0⟩) ++
    List.replicate 2 (.act 0 ⟨[], false, 0⟩)) rfl, rfl, rfl,
    run_of_replay (List.replicate 3 (.act 0 ⟨[], false, 0⟩) ++ .env ⟨[], false, 0⟩ ::
      List.replicate 6 (.act 1 ⟨[], false, 0⟩)) rfl, rfl, fun t => ?_⟩
  · match t with
    | 0 => exact ⟨_, rfl, fun _ => ⟨_, rfl, fun _ => ⟨_, rfl, fun _ => trivial⟩⟩⟩
    | 1 => exact ⟨_, rfl, fun _ => ⟨_, rfl, fun _ => ⟨_, rfl, fun _ => trivial⟩⟩⟩
    | t + 2 => exact trivial
  · match t with
    | 0 => rfl
    | 1 => rfl
    | t + 2 => rfl

end Nachos.Threads
