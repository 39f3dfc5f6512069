import Nachos.Threads.Lock
import Mathlib.Data.Finset.Card

/-! Readers and writers. The first reader takes the permit of `wrlock` and the last one gives it
back; in between it belongs to the readers together. The counter `readers` is changed only by the
thread that has `rdlock`. -/

namespace Nachos.Threads
open Lib Program Platform

inductive RWMode where
  | out
  | reading
  | writing
  deriving DecidableEq

/-- Calls of `rdLock` and `rdUnlock`, and of `wrLock` and `wrUnlock`, in matched pairs. -/
def rwPairs (w : Nat) (mode : RWMode) : Call → Option RWMode
  | .rdLock w' => if w' = w then (if mode = .out then some .reading else none) else some mode
  | .rdUnlock w' => if w' = w then (if mode = .reading then some .out else none) else some mode
  | .wrLock w' => if w' = w then (if mode = .out then some .writing else none) else some mode
  | .wrUnlock w' => if w' = w then (if mode = .writing then some .out else none) else some mode
  | _ => some mode

/-- Thread `t` is between `rdLock` and `rdUnlock`. -/
def readHolds (w : Nat) (t : Thread) : List Event → Bool :=
  since (fun e => e = .leave t (.rdLock w)) fun e => e = .enter t (.rdUnlock w)

def writeHolds (w : Nat) (t : Thread) : List Event → Bool :=
  since (fun e => e = .leave t (.wrLock w)) fun e => e = .enter t (.wrUnlock w)

def inReadCall (w : Nat) (t : Thread) : List Event → Bool :=
  since (fun e => e = .enter t (.rdLock w) ∨ e = .enter t (.rdUnlock w))
    fun e => e = .leave t (.rdLock w) ∨ e = .leave t (.rdUnlock w)

inductive RWPlace where
  | rest (mode : RWMode)
  | inRead
  | inWrite
  deriving DecidableEq

structure RWPos where
  place : RWPlace
  /-- It has `rdlock`. -/
  locked : Bool
  /-- `readers` counts it. -/
  counted : Bool
  /-- It answers for the readers' permit, whatever `readers` is. -/
  token : Bool
  /-- It has the permit for itself. -/
  writer : Bool
  /-- The value of `readers`. -/
  seen : Option Int

inductive RWOwner where
  | free
  | readers
  | writer (t : Thread)
  deriving DecidableEq

structure RWCalls (w : Nat) (h : List Event) (t : Thread) (place : RWPlace) : Prop where
  reading : readHolds w t h = true ↔ place = .rest .reading
  writing : writeHolds w t h = true ↔ place = .rest .writing
  calling : inReadCall w t h = true ↔ place = .inRead

structure RWAt (w : Nat) (m : Machine) (t : Thread) (g : RWPos) : Prop where
  calls : RWCalls w m.trace t g.place
  locked : g.locked = true → holds (.rdlock w) t m.trace = true
  token : g.token = true → g.locked = true
  seen : ∀ r, g.seen = some r → g.locked = true ∧ m.readers w = r
  counted : g.place ≠ .inRead → (g.counted = true ↔ g.place = .rest .reading)
  writer : g.place = .rest .writing → g.writer = true

structure RWOwns (w : Nat) (G : Thread → RWPos) (m : Machine) (own : RWOwner) : Prop where
  value : (m.semaphore (.wrlock w)).value = if own = .free then 1 else 0
  writer : ∀ t, (G t).writer = true → own = .writer t
  token : ∀ t, (G t).token = true → own = .readers
  readers : m.readers w ≠ 0 → own = .readers

def RWCounted (w : Nat) (G : Thread → RWPos) (m : Machine) : Prop :=
  ∃ S : Finset Thread, (∀ t, t ∈ S ↔ (G t).counted = true) ∧ m.readers w = S.card

structure RWInv (w : Nat) (G : Thread → RWPos) (m : Machine) : Prop where
  place : ∀ t, RWAt w m t (G t)
  owner : ∃ own, RWOwns w G m own
  count : RWCounted w G m

section invariant
variable {w : Nat} {t u : Thread} {g : RWPos} {G : Thread → RWPos} {m m' : Machine} {T : Obj → Prop}
  {own : RWOwner}
  {o : Op} {x : Choice} {e : Effect (ops.Res o) Machine}

theorem RWCalls.congr {p : RWPlace} {h h' : List Event} (hr : RWCalls w h u p)
    (h₁ : readHolds w u h' = readHolds w u h) (h₂ : writeHolds w u h' = writeHolds w u h)
    (h₃ : inReadCall w u h' = inReadCall w u h) : RWCalls w h' u p :=
  ⟨h₁ ▸ hr.reading, h₂ ▸ hr.writing, h₃ ▸ hr.calling⟩

theorem RWCalls.frame {p : RWPlace} (h : RWCalls w m.trace u p) (hf : Frame T m m')
    (hc : ¬ T .calls) :
    RWCalls w m'.trace u p := by
  have hr : readHolds w u m'.trace = readHolds w u m.trace := hf.since_eq fun e he => by
    simp only [decide_eq_true_eq] at he
    rcases he with rfl | rfl <;> exact ⟨_, rfl, hc⟩
  have hw : writeHolds w u m'.trace = writeHolds w u m.trace := hf.since_eq fun e he => by
    simp only [decide_eq_true_eq] at he
    rcases he with rfl | rfl <;> exact ⟨_, rfl, hc⟩
  have hi : inReadCall w u m'.trace = inReadCall w u m.trace := hf.since_eq fun e he => by
    simp only [decide_eq_true_eq] at he
    rcases he with (rfl | rfl) | rfl | rfl <;> exact ⟨_, rfl, hc⟩
  exact h.congr hr hw hi

section events
variable {c : Call} {h : List Event} {p : RWPlace}

theorem readHolds_enter :
    readHolds w t (.enter t c :: h) = (readHolds w t h && c ≠ .rdUnlock w) := by
  by_cases hc : c = .rdUnlock w <;> simp [readHolds, since, hc]

theorem readHolds_leave : readHolds w t (.leave t c :: h) = (readHolds w t h || c = .rdLock w) := by
  by_cases hc : c = .rdLock w <;> simp [readHolds, since, hc]

theorem writeHolds_enter :
    writeHolds w t (.enter t c :: h) = (writeHolds w t h && c ≠ .wrUnlock w) := by
  by_cases hc : c = .wrUnlock w <;> simp [writeHolds, since, hc]

theorem writeHolds_leave :
    writeHolds w t (.leave t c :: h) = (writeHolds w t h || c = .wrLock w) := by
  by_cases hc : c = .wrLock w <;> simp [writeHolds, since, hc]

theorem inReadCall_enter :
    inReadCall w t (.enter t c :: h) = (inReadCall w t h || (c = .rdLock w ∨ c = .rdUnlock w)) := by
  by_cases hc : c = .rdLock w ∨ c = .rdUnlock w <;> simp [inReadCall, since, hc]

theorem inReadCall_leave :
    inReadCall w t (.leave t c :: h) = (inReadCall w t h && ¬ (c = .rdLock w ∨
      c = .rdUnlock w)) := by
  by_cases hc : c = .rdLock w ∨ c = .rdUnlock w <;> simp [inReadCall, since, hc]

theorem RWCalls.of_ne (hu : u ≠ t) (hr : RWCalls w h u p) :
    RWCalls w (.enter t c :: h) u p ∧ RWCalls w (.leave t c :: h) u p := by
  constructor
  · exact hr.congr (since_cons_of_not rfl (by simp [Ne.symm hu]))
      (since_cons_of_not rfl (by simp [Ne.symm hu]))
      (since_cons_of_not (by simp [Ne.symm hu]) (by simp))
  · exact hr.congr (since_cons_of_not (by simp [Ne.symm hu]) rfl)
      (since_cons_of_not (by simp [Ne.symm hu]) rfl)
      (since_cons_of_not (by simp) (by simp [Ne.symm hu]))

end events

namespace RWAt

theorem congr (h : RWAt w m u g) (hf : Frame T m m') (hc : ¬ T .calls)
    (hh : holds (.rdlock w) u m'.trace = holds (.rdlock w) u m.trace)
    (hr : g.seen ≠ none → m'.readers w = m.readers w) : RWAt w m' u g where
  calls := h.calls.frame hf hc
  locked hl := hh.trans (h.locked hl)
  token := h.token
  seen r hs := ⟨(h.seen r hs).1, (hr (by simp [hs])).trans (h.seen r hs).2⟩
  counted := h.counted
  writer := h.writer

theorem other (h : RWAt w m u g) (he : platform.exec t o x m = some e) (hc : ¬ o.touches .calls)
    (hu : u ≠ t)
    (hr : g.seen ≠ none → e.state.readers w = m.readers w) : RWAt w e.state u g :=
  h.congr (exec_within (.inr fun _ hx => hx) he) (by simp [Obj.Shared, hc]) (holds_exec he hu) hr

end RWAt

theorem RWOwns.congr (h : RWOwns w G m own)
    (hv : (m'.semaphore (.wrlock w)).value = (m.semaphore (.wrlock w)).value)
    (hr : m'.readers w = m.readers w)
    (hw : g.writer = true → (G t).writer = true) (ht : g.token = true → own = .readers) :
    RWOwns w (Function.update G t g) m' own where
  value := hv.trans h.value
  writer u hu := by
    rcases eq_or_ne u t with rfl | hut
    · exact h.writer u (hw (by simpa using hu))
    · exact h.writer u (by simpa [hut] using hu)
  token u hu := by
    rcases eq_or_ne u t with rfl | hut
    · exact ht (by simpa using hu)
    · exact h.token u (by simpa [hut] using hu)
  readers h₀ := h.readers (hr ▸ h₀)

theorem RWCounted.congr (h : RWCounted w G m) (hr : m'.readers w = m.readers w)
    (hc : g.counted = (G t).counted) : RWCounted w (Function.update G t g) m' := by
  obtain ⟨S, hS, hcard⟩ := h
  refine ⟨S, fun u => ?_, hr.trans hcard⟩
  rcases eq_or_ne u t with rfl | hut
  · rw [Function.update_self, hc]
    exact hS u
  · rw [Function.update_of_ne hut]
    exact hS u

theorem RWCounted.insert (h : RWCounted w G m) (hr : m'.readers w = m.readers w + 1)
    (hn : (G t).counted = false) (hc : g.counted = true) :
    RWCounted w (Function.update G t g) m' := by
  obtain ⟨S, hS, hcard⟩ := h
  have ht : t ∉ S := fun ht => by simp [(hS t).mp ht] at hn
  refine ⟨Insert.insert t S, fun u => ?_, ?_⟩
  · rcases eq_or_ne u t with rfl | hut
    · simp [hc]
    · simp [hut, hS u]
  · rw [hr, hcard, Finset.card_insert_of_notMem ht]
    push_cast
    rfl

theorem RWCounted.erase (h : RWCounted w G m) (hr : m'.readers w = m.readers w - 1)
    (hn : (G t).counted = true) (hc : g.counted = false) :
    RWCounted w (Function.update G t g) m' := by
  obtain ⟨S, hS, hcard⟩ := h
  have ht : t ∈ S := (hS t).mpr hn
  have hpos := Finset.card_pos.mpr ⟨t, ht⟩
  refine ⟨S.erase t, fun u => ?_, ?_⟩
  · rcases eq_or_ne u t with rfl | hut
    · simp [hc]
    · simp [hut, hS u]
  · rw [hr, hcard, Finset.card_erase_of_mem ht]
    omega

theorem RWCounted.ne_zero (h : RWCounted w G m) (hc : (G t).counted = true) : m.readers w ≠ 0 := by
  obtain ⟨S, hS, hcard⟩ := h
  have hpos := Finset.card_pos.mpr ⟨t, (hS t).mpr hc⟩
  omega

def rwObjs (w : Nat) (x : Obj) : Prop :=
  x = .semaphore (.lock (.rdlock w)) ∨ x = .semaphore (.wrlock w) ∨ x = .readers w ∨ x = .calls

@[simp] theorem apart_rwObjs : Apart T (rwObjs w) ↔ ¬ T (.semaphore (.lock (.rdlock w))) ∧
    ¬ T (.semaphore (.wrlock w)) ∧ ¬ T (.readers w) ∧ ¬ T .calls := by
  simp [Apart, rwObjs]

theorem apart_shared_rwObjs : Apart Obj.Shared (rwObjs w) := by
  simp [Obj.Shared]

namespace RWInv

theorem step (h : RWInv w G m) (hat : RWAt w m' t g)
    (hother : ∀ u, u ≠ t → RWAt w m u (G u) → RWAt w m' u (G u))
    (hown : ∀ own, RWOwns w G m own → ∃ own', RWOwns w (Function.update G t g) m' own')
    (hcount : RWCounted w (Function.update G t g) m') : RWInv w (Function.update G t g) m' where
  place u := by
    rcases eq_or_ne u t with rfl | hut
    · rwa [Function.update_self]
    · rw [Function.update_of_ne hut]
      exact hother u hut (h.place u)
  owner := by
    obtain ⟨own, ho⟩ := h.owner
    exact hown own ho
  count := hcount

theorem congr (h : RWInv w G m) (hf : Frame T m m') (hc : ¬ T .calls)
    (hh : ∀ u, holds (.rdlock w) u m'.trace = holds (.rdlock w) u m.trace)
    (hv : (m'.semaphore (.wrlock w)).value = (m.semaphore (.wrlock w)).value)
    (hr : m'.readers w = m.readers w) :
    RWInv w G m' where
  place u := (h.place u).congr hf hc (hh u) fun _ => hr
  owner := by
    obtain ⟨own, ho⟩ := h.owner
    exact ⟨own, hv.trans ho.value, ho.writer, ho.token, fun h₀ => ho.readers (hr ▸ h₀)⟩
  count := by
    obtain ⟨S, hS, hcard⟩ := h.count
    exact ⟨S, hS, hr.trans hcard⟩

theorem frame (h : RWInv w G m) (hf : Frame T m m') (hT : Apart T (rwObjs w)) : RWInv w G m' := by
  obtain ⟨hs, hw, hr, hc⟩ := apart_rwObjs.mp hT
  exact h.congr hf hc (holds_of_frame hf hs) (hf.value _ hw) (hf.readers w hr)

theorem goto (h : RWInv w G m) (hat : RWAt w m t g) (hw : g.writer = true → (G t).writer = true)
    (hc : g.counted = (G t).counted) (ht : ∀ own, RWOwns w G m own → g.token = true →
      own = .readers) :
    RWInv w (Function.update G t g) m :=
  h.step hat (fun _ _ h => h) (fun own ho => ⟨own, ho.congr rfl rfl hw (ht own ho)⟩)
    (h.count.congr rfl hc)

theorem note {e : Event} {p : RWPlace} (h : RWInv w G m) (he : e.obj = some .calls)
    (hother : ∀ u, u ≠ t → RWCalls w m.trace u (G u).place → RWCalls w (e :: m.trace) u (G u).place)
    (hat : RWCalls w (e :: m.trace) t p) (hc : p ≠ .inRead →
      ((G t).counted = true ↔ p = .rest .reading))
    (hw : p = .rest .writing → (G t).writer = true) :
    RWInv w (Function.update G t { G t with place := p }) (m.setSched (m.toSched.note e)) := by
  have hf : Frame (· = .calls) m (m.setSched (m.toSched.note e)) := .note m (by simp [he])
  have hh := holds_of_frame (l := .rdlock w) hf (by simp)
  refine h.step ?_ (fun u hu hat => ?_) (fun own ho => ⟨own, ho.congr rfl rfl id (ho.token t)⟩)
    (h.count.congr rfl rfl)
  · exact ⟨hat, fun hl => (hh t).trans ((h.place t).locked hl), (h.place t).token,
      (h.place t).seen, hc, hw⟩
  · exact ⟨hother u hu hat.calls, fun hl => (hh u).trans (hat.locked hl), hat.token, hat.seen,
      hat.counted, hat.writer⟩

theorem setReaders (h : RWInv w G m) (hex : Exclusive (.rdlock w) m)
    (hl : (G t).locked = true) {n : Int}
    (hown : ∀ own, RWOwns w G m own → own = .readers)
    (hat : RWAt w { m with readers := Function.update m.readers w n } t g)
    (hw : g.writer = true → (G t).writer = true)
    (hcount : RWCounted w (Function.update G t g)
      { m with readers := Function.update m.readers w n }) :
    RWInv w (Function.update G t g) { m with readers := Function.update m.readers w n } := by
  refine h.step hat (fun u hu hat => ?_) (fun own ho => ⟨.readers, ?_⟩) hcount
  · refine ⟨hat.calls, hat.locked, hat.token, fun r hr => ?_, hat.counted, hat.writer⟩
    -- both threads would have the lock
    have hut := hex.unique u t (hat.locked (hat.seen r hr).1) ((h.place t).locked hl)
    exact absurd hut hu
  · obtain rfl := hown own ho
    refine ⟨ho.value, fun u hu => ?_, fun _ _ => rfl, fun _ => rfl⟩
    rcases eq_or_ne u t with rfl | hut
    · exact ho.writer u (hw (by simpa using hu))
    · exact ho.writer u (by simpa [hut] using hu)

theorem takePermit (h : RWInv w G m) (hv : (m.semaphore (.wrlock w)).value ≠ 0) (own' : RWOwner)
    (hat : RWAt w (m.setSched (m.toSched.down (.wrlock w))) t g) (hc : g.counted = (G t).counted)
    (hne : own' ≠ .free) (hw : g.writer = true → own' = .writer t)
    (ht : g.token = true → own' = .readers) :
    RWInv w (Function.update G t g) (m.setSched (m.toSched.down (.wrlock w))) := by
  have hf := frame_down m (.wrlock w)
  refine h.step hat (fun u _ hat => hat.congr hf (by simp) (holds_of_frame hf (by simp) u)
    fun _ => rfl)
    (fun own ho => ⟨own', ?_⟩) (h.count.congr rfl hc)
  have hfree : own = .free := by
    by_contra hn
    rw [ho.value, if_neg hn] at hv
    exact hv rfl
  subst hfree
  refine ⟨?_, fun u hu => ?_, fun u hu => ?_, fun h₀ => ?_⟩
  · have hval := ho.value
    rw [if_pos rfl] at hval
    simp [Sched.down, hval, hne]
  · rcases eq_or_ne u t with rfl | hut
    · exact hw (by simpa using hu)
    · cases ho.writer u (by simpa [hut] using hu)
  · rcases eq_or_ne u t with rfl | hut
    · exact ht (by simpa using hu)
    · cases ho.token u (by simpa [hut] using hu)
  · cases ho.readers h₀

theorem givePermit (h : RWInv w G m)
    (hat : RWAt w (m.setSched (m.toSched.up (.wrlock w) (some t))) t g)
    (hc : g.counted = (G t).counted) (hw : g.writer = false) (ht : g.token = false)
    (hown : ∀ own, RWOwns w G m own → own ≠ .free ∧ m.readers w = 0 ∧
      ∀ u, u ≠ t → (G u).writer = false ∧ (G u).token = false) :
    RWInv w (Function.update G t g) (m.setSched (m.toSched.up (.wrlock w) (some t))) := by
  have hf := frame_up m (.wrlock w) (some t)
  refine h.step hat (fun u _ hat => hat.congr hf (by simp) (holds_of_frame hf (by simp) u)
    fun _ => rfl)
    (fun own ho => ⟨.free, ?_⟩) (h.count.congr rfl hc)
  obtain ⟨hne, hr, hu⟩ := hown own ho
  refine ⟨?_, fun u hu' => ?_, fun u hu' => ?_, fun h₀ => absurd hr h₀⟩
  · have hval := ho.value
    rw [if_neg hne] at hval
    refine (Sched.value_up_self (some t)).trans ?_
    simp [hval]
  · rcases eq_or_ne u t with rfl | hut
    · simp [hw] at hu'
    · simp [hut, (hu u hut).1] at hu'
  · rcases eq_or_ne u t with rfl | hut
    · simp [ht] at hu'
    · simp [hut, (hu u hut).2] at hu'

end RWInv
end invariant

/-! ## The routines -/

def rwDiscipline (w : Nat) : Discipline ops Machine Thread Choice RWPos where
  Inv := RWInv w
  Allowed m _ _ _ := Exclusive (.rdlock w) m
  Legal _ := True

section routines
variable {w : Nat} {t : Thread} {g : RWPos}

theorem rw_within {α : Type} {T : Obj → Prop} {prog : Prog α} (hp : prog.Uses (Op.Within T))
    (hT : Apart T (rwObjs w)) : platform.Safe (rwDiscipline w) t prog (fun _ g' => g' = g) g :=
  Safe.of_uses (hp.mono fun _ ho => ⟨trivial, fun _ _ _ _ hI _ he =>
    RWInv.frame hI (exec_within ho he) (hT.or_shared apart_shared_rwObjs)⟩)

theorem rw_setLevel (now : IntStatus) :
    platform.Safe (rwDiscipline w) t (setLevel now) (fun _ g' => g' = g) g :=
  rw_within (T := fun _ => False) (within_setLevel now) apart_false

theorem rw_setHolder (v : Option Thread) :
    platform.Safe (rwDiscipline w) t (setHolder (.rdlock w) v) (fun _ g' => g' = g) g :=
  rw_within (T := (· = .holder (.rdlock w))) (within_perform (.inr fun _ h => h)) (by simp)

theorem rw_p {s : SemId} (g' : RWPos) (hs : s = .lock (.rdlock w) ∨ s = .wrlock w)
    (hdown : ∀ G m, RWInv w G m → G t = g → m.currentThread = t → (m.semaphore s).value ≠ 0 →
      RWInv w (Function.update G t g') (m.setSched (m.toSched.down s))) :
    platform.Safe (rwDiscipline w) t (Semaphore.p s) (fun _ q => q = g') g := by
  refine safe_p (fun now _ _ => rw_setLevel now) (safe_takeValue trivial (fun G m hI _ _ _ _ => ?_)
    fun G m x hI hg _ ht _ hv => ⟨g', hdown G m hI hg ht hv, rfl⟩)
  refine RWInv.congr hI (frame_park m s) (by simp) (fun _ => since_cons_of_not rfl rfl) ?_ rfl
  obtain rfl | rfl := hs <;> simp [Sched.park]

theorem rw_v {s : SemId} (g' : RWPos)
    (hup : ∀ G m, RWInv w G m → G t = g → Exclusive (.rdlock w) m →
      RWInv w (Function.update G t g') (m.setSched (m.toSched.up s (some t)))) :
    platform.Safe (rwDiscipline w) t (Semaphore.v s) (fun _ q => q = g') g := by
  refine safe_v (fun now _ _ => rw_setLevel now)
    (safe_once rfl trivial fun G m x r m' hI hg hA ht _ he => ?_)
  cases he
  exact ⟨g', ht ▸ hup G m hI hg hA, rfl⟩

theorem rw_acquire :
    platform.Safe (rwDiscipline w) t (Lock.acquire (.rdlock w))
      (fun _ g' => g' = { g with locked := true }) g := by
  refine safe_acquire trivial (rw_p { g with locked := true } (.inl rfl) fun G m hI hg ht hv => ?_)
    (rw_setHolder _)
  have hI : RWInv w G m := hI
  have hat := hI.place t
  rw [hg] at hat
  have hf := frame_down m (.lock (.rdlock w))
  refine hI.step ?_ (fun u hu hat => ?_) (fun own ho => ⟨own, ?_⟩) ?_
  · exact {
      calls := hat.calls.frame hf (by simp)
      locked := fun _ => (holds_down t).trans (by simp [ht])
      token := fun _ => rfl
      seen := fun r hr => ⟨rfl, (hat.seen r hr).2⟩
      counted := hat.counted
      writer := hat.writer }
  · refine hat.congr hf (by simp) ((holds_down u).trans ?_) fun _ => rfl
    simp [ht, hu]
  · exact ho.congr (hf.value _ (by simp)) rfl (fun h => by rwa [hg]) fun h =>
      ho.token t (by rwa [hg])
  · exact hI.count.congr rfl (by rw [hg])

/-- `Release`, by a thread that no longer relies on the lock. It may keep the lock. -/
theorem rw_release (hs : g.seen = none) (ht : g.token = false) :
    platform.Safe (rwDiscipline w) t (Lock.release (.rdlock w))
      (fun _ g' => ∃ b, g' = { g with locked := b }) g := by
  have hheld : platform.Safe (rwDiscipline w) t (Lock.isHeldByCurrentThread (.rdlock w))
    (fun _ g' => g' = g) g :=
    rw_within (T := fun _ => False) (within_isHeldByCurrentThread _) apart_false
  refine safe_release g (hheld.mono fun held _ hg => ?_) (rw_v { g with locked := false }
    fun G m hI hg _ => ?_)
    fun q hq => (rw_setHolder none).mono fun _ _ hg => ⟨false, hg.trans hq⟩
  · cases held with
    | false => exact ⟨g.locked, hg⟩
    | true => exact hg
  · have hat := hI.place t
    rw [hg] at hat
    have hf := frame_up m (.lock (.rdlock w)) (some t)
    refine hI.step ?_ (fun u hu hat => ?_) (fun own ho => ⟨own, ?_⟩) ?_
    · exact {
        calls := hat.calls.frame hf (by simp)
        locked := Bool.noConfusion
        token := fun h => by simp [ht] at h
        seen := fun r hr => by simp [hs] at hr
        counted := hat.counted
        writer := hat.writer }
    · refine hat.congr hf (by simp) ((holds_up u).trans ?_) fun _ => rfl
      simp [hu]
    · exact ho.congr (hf.value _ (by simp)) rfl (fun h => by rwa [hg]) fun h =>
        ho.token t (by rwa [hg])
    · exact hI.count.congr rfl (by rw [hg])

theorem rw_getReaders {Q : Int → RWPos → Prop}
    (h : ∀ G m, RWInv w G m → G t = g → ∃ g', RWInv w (Function.update G t g') m ∧ Q
      (m.readers w) g') :
    platform.Safe (rwDiscipline w) t (getReaders w) Q g := by
  refine safe_once rfl trivial fun G m x r m' hI hg _ _ _ he => ?_
  cases he
  exact h G m hI hg

/-- The first look at `readers` in `rdLock`: other readers have the permit already. -/
theorem rw_getReaders_rdLock :
    platform.Safe (rwDiscipline w) t (getReaders w)
      (fun n g' => g' = ⟨.inRead, true, false, n ≠ 0, false, none⟩)
      ⟨.inRead, true, false, false, false, none⟩ := by
  refine rw_getReaders fun G m hI hg =>
    ⟨⟨.inRead, true, false, m.readers w ≠ 0, false, none⟩,
      hI.goto ?_ Bool.noConfusion (by rw [hg]) fun own ho htok => ?_, rfl⟩
  · have hat := hI.place t
    rw [hg] at hat
    exact {
      calls := hat.calls
      locked := hat.locked
      token := fun _ => rfl
      seen := by simp
      counted := hat.counted
      writer := hat.writer }
  · exact ho.readers (by simpa using htok)

theorem rw_getReaders_seen (hl : g.locked = true) :
    platform.Safe (rwDiscipline w) t (getReaders w)
      (fun n g' => g' = { g with seen := some n }) g := by
  refine rw_getReaders fun G m hI hg => ⟨_, hI.goto ?_ (fun h => by rwa [hg]) (by rw [hg])
    fun own ho htok => ?_, rfl⟩
  · have hat := hI.place t
    rw [hg] at hat
    exact {
      calls := hat.calls
      locked := hat.locked
      token := hat.token
      seen := fun r hr => ⟨hl, Option.some.inj hr⟩
      counted := hat.counted
      writer := hat.writer }
  · exact ho.token t (by rwa [hg])

/-- The second look at `readers` in `rdUnlock`: the last reader answers for the permit. -/
theorem rw_getReaders_rdUnlock :
    platform.Safe (rwDiscipline w) t (getReaders w)
      (fun n g' => g' = ⟨.inRead, true, false, n = 0, false, if n = 0 then some 0 else none⟩)
      ⟨.inRead, true, false, true, false, none⟩ := by
  refine rw_getReaders fun G m hI hg =>
    ⟨⟨.inRead, true, false, m.readers w = 0, false, if m.readers w = 0 then some 0 else none⟩,
      hI.goto ?_ Bool.noConfusion (by rw [hg]) fun own ho _ => ?_, rfl⟩
  · have hat := hI.place t
    rw [hg] at hat
    refine {
      calls := hat.calls
      locked := hat.locked
      token := fun _ => rfl
      seen := fun r hr => ⟨rfl, ?_⟩
      counted := hat.counted
      writer := hat.writer }
    by_cases h₀ : m.readers w = 0
    · simpa [h₀] using hr
    · simp [h₀] at hr
  · exact ho.token t (by rw [hg])

theorem rw_setReaders_rdLock (r : Int) :
    platform.Safe (rwDiscipline w) t (setReaders w (r + 1))
      (fun _ g' => g' = ⟨.inRead, true, true, false, false, none⟩)
      ⟨.inRead, true, false, true, false, some r⟩ := by
  refine safe_once rfl trivial fun G m x _ m' hI hg hA _ _ he => ?_
  cases he
  have hI : RWInv w G m := hI
  have hat := hI.place t
  rw [hg] at hat
  have hr := (hat.seen r rfl).2
  refine ⟨_, hI.setReaders hA (by rw [hg]) (fun own ho => ho.token t (by rw [hg])) ?_
    (by simp) ?_, rfl⟩
  · exact {
      calls := hat.calls
      locked := hat.locked
      token := Bool.noConfusion
      seen := by simp
      counted := fun h => absurd rfl h
      writer := RWPlace.noConfusion }
  · exact hI.count.insert (by simp [hr]) (by rw [hg]) rfl

/-- `rdUnlock` stops counting its thread, which answers for the permit from now on. -/
theorem rw_setReaders_rdUnlock (r : Int) :
    platform.Safe (rwDiscipline w) t (setReaders w (r - 1))
      (fun _ g' => g' = ⟨.inRead, true, false, true, false, none⟩)
      ⟨.inRead, true, true, false, false, some r⟩ := by
  refine safe_once rfl trivial fun G m x _ m' hI hg hA _ _ he => ?_
  cases he
  have hI : RWInv w G m := hI
  have hat := hI.place t
  rw [hg] at hat
  have hr := (hat.seen r rfl).2
  have hne := hI.count.ne_zero (t := t) (by rw [hg])
  refine ⟨_, hI.setReaders hA (by rw [hg]) (fun own ho => ho.readers hne) ?_ (by simp) ?_, rfl⟩
  · exact {
      calls := hat.calls
      locked := hat.locked
      token := fun _ => rfl
      seen := by simp
      counted := fun h => absurd rfl h
      writer := RWPlace.noConfusion }
  · exact hI.count.erase (by simp [hr]) (by rw [hg]) rfl

theorem rw_p_rdLock :
    platform.Safe (rwDiscipline w) t (Semaphore.p (.wrlock w))
      (fun _ g' => g' = ⟨.inRead, true, false, true, false, none⟩)
      ⟨.inRead, true, false, false, false, none⟩ := by
  refine rw_p _ (.inr rfl) fun G m hI hg _ hv => ?_
  have hat := hI.place t
  rw [hg] at hat
  have hf := frame_down m (.wrlock w)
  refine hI.takePermit hv .readers ?_ (by rw [hg]) RWOwner.noConfusion Bool.noConfusion fun _ => rfl
  exact {
    calls := hat.calls.frame hf (by simp)
    locked := fun _ => (holds_of_frame hf (by simp) t).trans (hat.locked rfl)
    token := fun _ => rfl
    seen := by simp
    counted := hat.counted
    writer := hat.writer }

theorem rw_v_rdUnlock :
    platform.Safe (rwDiscipline w) t (Semaphore.v (.wrlock w))
      (fun _ g' => g' = ⟨.inRead, true, false, false, false, none⟩)
      ⟨.inRead, true, false, true, false, some 0⟩ := by
  refine rw_v _ fun G m hI hg hex => ?_
  have hat := hI.place t
  rw [hg] at hat
  have hf := frame_up m (.wrlock w) (some t)
  refine hI.givePermit ?_ (by rw [hg]) rfl rfl fun own ho => ?_
  · exact {
      calls := hat.calls.frame hf (by simp)
      locked := fun _ => (holds_of_frame hf (by simp) t).trans (hat.locked rfl)
      token := Bool.noConfusion
      seen := by simp
      counted := hat.counted
      writer := hat.writer }
  · obtain rfl := ho.token t (by rw [hg])
    refine ⟨RWOwner.noConfusion, (hat.seen 0 rfl).2, fun u hu => ⟨?_, ?_⟩⟩
    · exact Bool.eq_false_of_not_eq_true fun h => by cases ho.writer u h
    · refine Bool.eq_false_of_not_eq_true fun h => hu ?_
      exact hex.unique u t ((hI.place u).locked ((hI.place u).token h)) (hat.locked rfl)

theorem rw_wrLock (b : Bool) :
    platform.Safe (rwDiscipline w) t (RWLock.wrLock w)
      (fun _ g' => g' = ⟨.inWrite, b, false, false, true, none⟩)
      ⟨.inWrite, b, false, false, false, none⟩ := by
  refine rw_p _ (.inr rfl) fun G m hI hg _ hv => ?_
  have hat := hI.place t
  rw [hg] at hat
  have hf := frame_down m (.wrlock w)
  refine hI.takePermit hv (.writer t) ?_ (by rw [hg]) RWOwner.noConfusion (fun _ => rfl)
    Bool.noConfusion
  exact {
    calls := hat.calls.frame hf (by simp)
    locked := fun h => (holds_of_frame hf (by simp) t).trans (hat.locked h)
    token := Bool.noConfusion
    seen := by simp
    counted := hat.counted
    writer := RWPlace.noConfusion }

theorem rw_wrUnlock (b : Bool) :
    platform.Safe (rwDiscipline w) t (RWLock.wrUnlock w)
      (fun _ g' => g' = ⟨.inWrite, b, false, false, false, none⟩)
      ⟨.inWrite, b, false, false, true, none⟩ := by
  refine rw_v _ fun G m hI hg _ => ?_
  have hat := hI.place t
  rw [hg] at hat
  have hf := frame_up m (.wrlock w) (some t)
  refine hI.givePermit ?_ (by rw [hg]) rfl rfl fun own ho => ?_
  · exact {
      calls := hat.calls.frame hf (by simp)
      locked := fun h => (holds_of_frame hf (by simp) t).trans (hat.locked h)
      token := Bool.noConfusion
      seen := by simp
      counted := hat.counted
      writer := RWPlace.noConfusion }
  · obtain rfl := ho.writer t (by rw [hg])
    refine ⟨RWOwner.noConfusion, ?_, fun u hu => ⟨?_, ?_⟩⟩
    · by_contra h₀
      cases ho.readers h₀
    · refine Bool.eq_false_of_not_eq_true fun h => hu ?_
      cases ho.writer u h
      rfl
    · exact Bool.eq_false_of_not_eq_true fun h => by cases ho.token u h

theorem rw_rdLock (b : Bool) :
    platform.Safe (rwDiscipline w) t (RWLock.rdLock w)
      (fun _ g' => ∃ b, g' = ⟨.inRead, b, true, false, false, none⟩)
      ⟨.inRead, b, false, false, false, none⟩ := by
  have hcount : platform.Safe (rwDiscipline w) t
      (do setReaders w ((← getReaders w) + 1); Lock.release (.rdlock w))
      (fun _ g' => ∃ b, g' = ⟨.inRead, b, true, false, false, none⟩)
      ⟨.inRead, true, false, true, false, none⟩ := by
    refine (rw_getReaders_seen rfl).bind_eq fun r => ?_
    refine (rw_setReaders_rdLock r).bind_eq fun _ => ?_
    exact rw_release rfl rfl
  refine rw_acquire.bind_eq fun _ => ?_
  refine rw_getReaders_rdLock.bind_eq fun n => ?_
  dsimp only
  split
  · next h₀ =>
    subst h₀
    refine rw_p_rdLock.bind_eq fun _ => ?_
    exact hcount
  · next h₀ =>
    rw [decide_eq_true h₀]
    exact hcount

theorem rw_rdUnlock (b : Bool) :
    platform.Safe (rwDiscipline w) t (RWLock.rdUnlock w)
      (fun _ g' => ∃ b, g' = ⟨.inRead, b, false, false, false, none⟩)
      ⟨.inRead, b, true, false, false, none⟩ := by
  refine rw_acquire.bind_eq fun _ => ?_
  refine (rw_getReaders_seen rfl).bind_eq fun r => ?_
  refine (rw_setReaders_rdUnlock r).bind_eq fun _ => ?_
  refine rw_getReaders_rdUnlock.bind_eq fun n => ?_
  dsimp only
  split
  · next h₀ =>
    subst h₀
    refine rw_v_rdUnlock.bind_eq fun _ => ?_
    exact rw_release rfl rfl
  · next h₀ =>
    rw [decide_eq_false h₀]
    exact rw_release rfl rfl

theorem rw_enter (c : Call) (p : RWPlace)
    (hcalls : ∀ h, RWCalls w h t g.place → RWCalls w (.enter t c :: h) t p)
    (hc : p ≠ .inRead → (g.counted = true ↔ p = .rest .reading))
    (hw : p = .rest .writing → g.writer = true) :
    platform.Safe (rwDiscipline w) t (enter c) (fun _ g' => g' = { g with place := p }) g := by
  refine safe_once rfl trivial fun G m x r m' hI hg _ ht _ he => ?_
  cases he
  subst hg
  rw [ht]
  exact ⟨_, RWInv.note hI rfl (fun u hu hr => (hr.of_ne hu).1) (hcalls _ (RWInv.place hI t).calls)
    hc hw, rfl⟩

theorem rw_leave (c : Call) (p : RWPlace)
    (hcalls : ∀ h, RWCalls w h t g.place → RWCalls w (.leave t c :: h) t p)
    (hc : p ≠ .inRead → (g.counted = true ↔ p = .rest .reading))
    (hw : p = .rest .writing → g.writer = true) :
    platform.Safe (rwDiscipline w) t (leave c) (fun _ g' => g' = { g with place := p }) g := by
  refine safe_once rfl trivial fun G m x r m' hI hg _ ht _ he => ?_
  cases he
  subst hg
  rw [ht]
  exact ⟨_, RWInv.note hI rfl (fun u hu hr => (hr.of_ne hu).2) (hcalls _ (RWInv.place hI t).calls)
    hc hw, rfl⟩

/-- A thread between its calls. It may have been left with `rdlock`. -/
def RWPos.resting (mode : RWMode) (locked : Bool) : RWPos :=
  ⟨.rest mode, locked, mode = .reading, false, mode = .writing, none⟩

theorem rw_prog {c : Call} {mode mode' : RWMode} {p : RWPlace} {b : Bool}
    (hp : p = .inRead ∨ p = .inWrite ∧ mode ≠ .reading ∨ p = .rest mode)
    (henter : ∀ h, RWCalls w h t (.rest mode) → RWCalls w (.enter t c :: h) t p)
    (hbody : platform.Safe (rwDiscipline w) t c.body
      (fun _ g' => ∃ b, g' = { RWPos.resting mode' b with place := p })
        { RWPos.resting mode b with place := p })
    (hleave : ∀ h, RWCalls w h t p → RWCalls w (.leave t c :: h) t (.rest mode')) :
    platform.Safe (rwDiscipline w) t c.prog (fun _ g' => ∃ b, g' = .resting mode' b)
      (.resting mode b) := by
  refine (rw_enter c p henter (fun h => ?_) fun h => ?_).bind fun _ _ hg => ?_
  · obtain rfl | ⟨rfl, hm⟩ | rfl := hp
    · exact absurd rfl h
    · simpa [RWPos.resting] using hm
    · simp [RWPos.resting]
  · obtain rfl | ⟨rfl, hm⟩ | rfl := hp
    · cases h
    · cases h
    · cases h
      rfl
  rw [hg]
  refine hbody.bind fun _ _ hg => ?_
  obtain ⟨b', rfl⟩ := hg
  refine (rw_leave c (.rest mode') hleave (fun _ => ?_) fun h => ?_).bind fun _ _ hg => ?_
  · simp [RWPos.resting]
  · cases h
    rfl
  exact ⟨b', hg⟩

theorem rw_call {c : Call} {mode mode' : RWMode} {b : Bool} (hc : rwPairs w mode c = some mode') :
    platform.Safe (rwDiscipline w) t c.prog (fun _ g' => ∃ b, g' = .resting mode' b)
      (.resting mode b) := by
  by_cases ht : c.touches (.semaphore (.wrlock w))
  · obtain rfl | rfl | rfl | rfl : c = .rdLock w ∨ c = .rdUnlock w ∨ c = .wrLock w ∨
      c = .wrUnlock w := by
      cases c <;> simp_all [Call.touches]
    · obtain ⟨rfl, rfl⟩ : mode = .out ∧ mode' = .reading := by
        cases mode <;> simp_all [rwPairs]
      refine rw_prog (p := .inRead) (.inl rfl) (fun h hr => ?_) (rw_rdLock b) fun h hr => ?_
      · have h₁ := hr.reading
        have h₂ := hr.writing
        constructor <;> simp_all [readHolds_enter, writeHolds_enter, inReadCall_enter]
      · have h₂ := hr.writing
        constructor <;> simp_all [readHolds_leave, writeHolds_leave, inReadCall_leave]
    · obtain ⟨rfl, rfl⟩ : mode = .reading ∧ mode' = .out := by
        cases mode <;> simp_all [rwPairs]
      refine rw_prog (p := .inRead) (.inl rfl) (fun h hr => ?_) (rw_rdUnlock b) fun h hr => ?_
      · have h₂ := hr.writing
        constructor <;> simp_all [readHolds_enter, writeHolds_enter, inReadCall_enter]
      · have h₁ := hr.reading
        have h₂ := hr.writing
        constructor <;> simp_all [readHolds_leave, writeHolds_leave, inReadCall_leave]
    · obtain ⟨rfl, rfl⟩ : mode = .out ∧ mode' = .writing := by
        cases mode <;> simp_all [rwPairs]
      refine rw_prog (p := .inWrite) (.inr (.inl ⟨rfl, RWMode.noConfusion⟩)) (fun h hr => ?_)
        ((rw_wrLock b).mono fun _ _ hg => ⟨b, hg⟩) fun h hr => ?_
      · have h₁ := hr.reading
        have h₂ := hr.writing
        have h₃ := hr.calling
        constructor <;> simp_all [readHolds_enter, writeHolds_enter, inReadCall_enter]
      · have h₁ := hr.reading
        have h₃ := hr.calling
        constructor <;> simp_all [readHolds_leave, writeHolds_leave, inReadCall_leave]
    · obtain ⟨rfl, rfl⟩ : mode = .writing ∧ mode' = .out := by
        cases mode <;> simp_all [rwPairs]
      refine rw_prog (p := .inWrite) (.inr (.inl ⟨rfl, RWMode.noConfusion⟩)) (fun h hr => ?_)
        ((rw_wrUnlock b).mono fun _ _ hg => ⟨b, hg⟩) fun h hr => ?_
      · have h₁ := hr.reading
        have h₃ := hr.calling
        constructor <;> simp_all [readHolds_enter, writeHolds_enter, inReadCall_enter]
      · have h₁ := hr.reading
        have h₂ := hr.writing
        have h₃ := hr.calling
        constructor <;> simp_all [readHolds_leave, writeHolds_leave, inReadCall_leave]
  · have hne : c ≠ .rdLock w ∧ c ≠ .rdUnlock w ∧ c ≠ .wrLock w ∧ c ≠ .wrUnlock w := by
      refine ⟨?_, ?_, ?_, ?_⟩ <;> rintro rfl <;> simp [Call.touches] at ht
    obtain rfl : mode = mode' := by
      cases c with
      | rdLock w' | rdUnlock w' | wrLock w' | wrUnlock w' =>
        have hw : w' ≠ w := fun h => by simp [h] at hne
        simpa [rwPairs, hw] using hc
      | _ => exact Option.some.inj hc
    have hlock : ¬ c.touches (.semaphore (.lock (.rdlock w))) := by
      cases c <;> simp_all [Call.touches]
    have hreaders : ¬ c.touches (.readers w) := by
      cases c <;> simp_all [Call.touches]
    have hapart := apart_rwObjs.mpr ⟨hlock, ht, hreaders, c.not_touches_calls⟩
    refine rw_prog (p := .rest mode) (.inr (.inr rfl)) (fun h hr => ?_) ?_ fun h hr => ?_
    · refine hr.congr ?_ ?_ ?_
      · simp [readHolds_enter, hne]
      · simp [writeHolds_enter, hne]
      · simp [inReadCall_enter, hne]
    · exact (rw_within c.body_within hapart).mono fun _ _ hg => ⟨b, hg⟩
    · refine hr.congr ?_ ?_ ?_
      · simp [readHolds_leave, hne]
      · simp [writeHolds_leave, hne]
      · simp [inReadCall_leave, hne]

end routines

theorem RWInv.initial (w : Nat) (config : NetConfig) (user : Nat → Int) :
    RWInv w (fun _ => .resting .out false) ((Machine.initial (initialValue user)).named config) where
  place t := by
    refine ⟨⟨?_, ?_, ?_⟩, ?_, ?_, ?_, ?_, ?_⟩
    all_goals simp [RWPos.resting, readHolds, writeHolds, inReadCall, Machine.initial, Machine.named, since]
  owner := ⟨.free, rfl, nofun, nofun, fun h => absurd rfl h⟩
  count := ⟨∅, fun t => by simp [RWPos.resting], rfl⟩

variable {w : Nat} {user : Nat → Int} {client : Thread → Client} {c : Tasks ops Machine Unit Thread}

theorem rwInv_of_run (hclient : ∀ t, Follows (rwPairs w) .out (client t))
    (h : platform.Run (fun _ _ => True) (start user client) c) : ∃ G, RWInv w G c.state := by
  have hmeets : platform.Run (rwDiscipline w).Meets (start user client) c := by
    refine (h.strengthen fun c' h' => exclusive_of_run (.rdlock w) h').mono fun c' mv hmv => ?_
    cases mv with
    | env x => trivial
    | act t x => exact fun o k _ => hmv.2
  obtain ⟨G, hI, -⟩ := exists_ghost (D := rwDiscipline w) (R := fun _ mode g => ∃ b,
    g = .resting mode b)
    (RWInv.initial w _ user)
    (fun G x m m' hI he => by
      obtain ⟨m₁, is, h₁, hf⟩ := env_frame he
      exact (RWInv.frame hI (handle_frame h₁) apart_shared_rwObjs).frame hf apart_false)
    (fun t => rw_setLevel .on)
    (fun t o mode mode' g ho hg => by
      obtain ⟨b, rfl⟩ := hg
      exact rw_call ho)
    (fun t mode g hg => by
      obtain ⟨b, rfl⟩ := hg
      exact (rw_call (c := .finish) rfl).mono fun _ _ _ => trivial)
    (fun _ => ⟨false, rfl⟩) hclient hmeets
  exact ⟨G, hI⟩

/-- Readers and writers exclude each other, and `readers` is the number of readers when nobody
is inside `rdLock` or `rdUnlock`. -/
theorem rwLock_exclusion (hclient : ∀ t, Follows (rwPairs w) .out (client t))
    (h : platform.Run (fun _ _ => True) (start user client) c) :
    (∀ t u, writeHolds w t c.state.trace = true → writeHolds w u c.state.trace = true → t = u) ∧
    (∀ t u, writeHolds w t c.state.trace = true → readHolds w u c.state.trace = false) ∧
    ((∀ t, inReadCall w t c.state.trace = false) →
      ∃ S : Finset Thread, (∀ t, t ∈ S ↔ readHolds w t c.state.trace = true) ∧
        c.state.readers w = S.card) := by
  obtain ⟨G, hI⟩ := rwInv_of_run hclient h
  obtain ⟨own, ho⟩ := hI.owner
  have hwriter : ∀ t, writeHolds w t c.state.trace = true → own = .writer t := fun t ht =>
    ho.writer t ((hI.place t).writer ((hI.place t).calls.writing.mp ht))
  refine ⟨fun t u ht hu => ?_, fun t u ht => ?_, fun hnone => ?_⟩
  · have heq := (hwriter t ht).symm.trans (hwriter u hu)
    exact RWOwner.writer.inj heq
  · refine Bool.eq_false_of_not_eq_true fun hu => ?_
    have hreading := (hI.place u).calls.reading.mp hu
    have hcounted := ((hI.place u).counted (by simp [hreading])).mpr hreading
    cases (hwriter t ht).symm.trans (ho.readers (hI.count.ne_zero hcounted))
  · obtain ⟨S, hS, hcard⟩ := hI.count
    refine ⟨S, fun t => ?_, hcard⟩
    have hnot : (G t).place ≠ .inRead := fun hp => by
      have := (hI.place t).calls.calling.mpr hp
      simp [hnone t] at this
    rw [hS t, (hI.place t).counted hnot, (hI.place t).calls.reading]

/-- The main thread has returned from `rdLock`: nobody writes, and it is the one reader. -/
theorem rwLock_exclusion_reading :
    ∃ c, platform.Run (fun _ _ => True) (start (fun _ => 0)
        fun _ => perform (S := calls) (.rdLock 0)) c ∧
      readHolds 0 0 c.state.trace = true ∧ c.state.readers 0 = 1 ∧ ∀ t,
        writeHolds 0 t c.state.trace = false := by
  have h := run_of_replay (P := platform)
    (c := start (fun _ => 0) fun _ => perform (S := calls) (.rdLock 0))
    (List.replicate 19 (.act 0 ⟨[], false, 0⟩)) rfl
  have hclient : Follows (rwPairs 0) .out (perform (S := calls) (.rdLock 0)) :=
    ⟨.reading, rfl, fun _ => trivial⟩
  refine ⟨_, h, rfl, rfl, fun t => Bool.eq_false_of_not_eq_true fun ht => ?_⟩
  cases (rwLock_exclusion (fun _ => hclient) h).2.1 t 0 ht

end Nachos.Threads
