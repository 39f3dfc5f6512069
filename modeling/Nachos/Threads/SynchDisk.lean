import Nachos.Threads.Lock

/-! The protocol of `SynchDisk`: a thread that has the lock makes one request and waits for its
interrupt, so the disk is idle whenever a request is made. -/

namespace Nachos.Threads
open Lib Program Platform

def Call.usesDisk : Call → Bool
  | .readSector _ | .writeSector .. => true
  | _ => false

/-- The threads whose requests the disk has not completed, oldest first. -/
def outstanding : List Event → List Thread
  | [] => []
  | .request t :: h => outstanding h ++ [t]
  | .interrupt :: h => (outstanding h).tail
  | _ :: h => outstanding h

def entersDisk (t : Thread) : Event → Bool
  | .enter u c => u = t ∧ c.usesDisk = true
  | _ => false

/-- Thread `t` has made a request since it last called `ReadSector` or `WriteSector`. -/
def requested (t : Thread) : List Event → Bool := since (fun e => e = .request t) (entersDisk t)

/-- Every call of `ReadSector` or `WriteSector` that has returned had made its request, and the
interrupt of that request had come. -/
def ReturnsServed : List Event → Prop
  | [] => True
  | e :: h => (∀ t c, e = .leave t c → c.usesDisk = true → requested t h = true ∧
    t ∉ outstanding h) ∧
    ReturnsServed h

inductive DiskPos where
  | out
  | locked
  /-- The request is made, and `P` has not returned. -/
  | requested
  | served
  deriving DecidableEq

def DiskState (m : Machine) : Option Thread → Prop
  | none => m.active = false ∧ m.pending = 0 ∧ (m.semaphore .disk).value = 0 ∧
    outstanding m.trace = []
  | some t => (m.active = true ∧ m.pending = 1 ∧ (m.semaphore .disk).value = 0 ∧
    outstanding m.trace = [t]) ∨
    m.active = false ∧ m.pending = 0 ∧ (m.semaphore .disk).value = 1 ∧ outstanding m.trace = []

def DiskAt (m : Machine) (t : Thread) : DiskPos → Prop
  | .out => True
  | .locked => holds .disk t m.trace = true
  | .requested => holds .disk t m.trace = true ∧ requested t m.trace = true
  | .served => requested t m.trace = true ∧ t ∉ outstanding m.trace

structure DiskInv (G : Thread → DiskPos) (m : Machine) : Prop where
  state : ∃ b, DiskState m b ∧ ∀ t, G t = .requested ↔ b = some t
  place : ∀ t, DiskAt m t (G t)
  returns : ReturnsServed m.trace

section invariant
variable {t u : Thread} {p : DiskPos} {b : Option Thread} {G : Thread → DiskPos} {m m' : Machine}
  {T : Obj → Prop}
  {o : Op} {x : Choice} {e : Effect (ops.Res o) Machine}

theorem outstanding_of_frame (hf : Frame T m m') (hd : ¬ T .disk) :
    outstanding m'.trace = outstanding m.trace := by
  refine hf.trace_eq fun e h he => ?_
  cases e with
  | request t => exact absurd (he _ rfl) hd
  | interrupt => exact absurd (he _ rfl) hd
  | _ => rfl

theorem requested_of_frame (hf : Frame T m m') (hd : ¬ T .disk) (hc : ¬ T .calls) (t : Thread) :
    requested t m'.trace = requested t m.trace := by
  refine hf.since_eq fun e he => ?_
  rcases he with he | he
  · rw [of_decide_eq_true he]
    exact ⟨_, rfl, hd⟩
  · cases e with
    | enter u c => exact ⟨_, rfl, hc⟩
    | _ => cases he

theorem returnsServed_of_frame (hf : Frame T m m') (hc : ¬ T .calls) :
    ReturnsServed m'.trace ↔ ReturnsServed m.trace := by
  have heq : ReturnsServed m'.trace = ReturnsServed m.trace := hf.trace_eq fun e h he => by
    refine propext (and_iff_right fun t c ht => absurd (he .calls ?_) hc)
    rw [ht]
    rfl
  rw [heq]

theorem DiskState.congr (h : DiskState m b) (ha : m'.active = m.active)
    (hp : m'.pending = m.pending)
    (hv : (m'.semaphore .disk).value = (m.semaphore .disk).value)
    (ho : outstanding m'.trace = outstanding m.trace) : DiskState m' b := by
  cases b <;> simpa only [DiskState, ha, hp, hv, ho] using h

theorem DiskAt.congr (h : DiskAt m u p) (hh : holds .disk u m'.trace = holds .disk u m.trace)
    (hr : requested u m'.trace = requested u m.trace)
    (ho : u ∉ outstanding m.trace → u ∉ outstanding m'.trace) : DiskAt m' u p := by
  cases p with
  | out => trivial
  | locked => exact hh.trans h
  | requested => exact ⟨hh.trans h.1, hr.trans h.2⟩
  | served => exact ⟨hr.trans h.1, ho h.2⟩

def diskObjs (x : Obj) : Prop :=
  x = .semaphore (.lock .disk) ∨ x = .semaphore .disk ∨ x = .disk ∨ x = .calls

@[simp] theorem apart_diskObjs : Apart T diskObjs ↔
    ¬ T (.semaphore (.lock .disk)) ∧ ¬ T (.semaphore .disk) ∧ ¬ T .disk ∧ ¬ T .calls := by
  simp [Apart, diskObjs]

namespace DiskInv

theorem congr (h : DiskInv G m) (hf : Frame T m m') (hs : ¬ T (.semaphore (.lock .disk)))
    (hv : (m'.semaphore .disk).value = (m.semaphore .disk).value) (hd : ¬ T .disk)
    (hc : ¬ T .calls) :
    DiskInv G m' where
  state := by
    obtain ⟨b, hb, hG⟩ := h.state
    exact ⟨b, hb.congr (hf.disk hd).1 (hf.disk hd).2 hv (outstanding_of_frame hf hd), hG⟩
  place u := by
    refine (h.place u).congr (holds_of_frame hf hs u) (requested_of_frame hf hd hc u) fun hu => ?_
    rwa [outstanding_of_frame hf hd]
  returns := (returnsServed_of_frame hf hc).mpr h.returns

theorem frame (h : DiskInv G m) (hf : Frame T m m') (hT : Apart T diskObjs) : DiskInv G m' := by
  obtain ⟨hs, hv, hd, hc⟩ := apart_diskObjs.mp hT
  exact h.congr hf hs (hf.value _ hv) hd hc

theorem step (h : DiskInv G m) (hat : DiskAt m' t p)
    (hother : ∀ u, u ≠ t → DiskAt m u (G u) → DiskAt m' u (G u))
    (hstate : ∃ b, DiskState m' b ∧ ∀ u, Function.update G t p u = .requested ↔ b = some u)
    (hret : ReturnsServed m'.trace) : DiskInv (Function.update G t p) m' where
  state := hstate
  place u := by
    rcases eq_or_ne u t with rfl | hu
    · rwa [Function.update_self]
    · rw [Function.update_of_ne hu]
      exact hother u hu (h.place u)
  returns := hret

theorem update_requested (hG : ∀ u, G u = .requested ↔ b = some u)
    (hp : p = .requested ↔ G t = .requested)
    (u : Thread) : Function.update G t p u = .requested ↔ b = some u := by
  rcases eq_or_ne u t with rfl | hu
  · rw [Function.update_self, hp]
    exact hG u
  · rw [Function.update_of_ne hu]
    exact hG u

theorem lockStep (h : DiskInv G m) (hf : Frame (· = .semaphore (.lock .disk)) m m')
    (hh : ∀ u, u ≠ t → holds .disk u m'.trace = holds .disk u m.trace) (hat : DiskAt m' t p)
    (hp : p = .requested ↔ G t = .requested) : DiskInv (Function.update G t p) m' := by
  refine h.step hat (fun u hu hat => ?_) ?_ ((returnsServed_of_frame hf (by simp)).mpr h.returns)
  · refine hat.congr (hh u hu) (requested_of_frame hf (by simp) (by simp) u) fun hm => ?_
    rwa [outstanding_of_frame hf (by simp)]
  · obtain ⟨b, hb, hG⟩ := h.state
    exact ⟨b, hb.congr (hf.disk (by simp)).1 (hf.disk (by simp)).2 (hf.value _ (by simp))
      (outstanding_of_frame hf (by simp)),
      update_requested hG hp⟩

theorem idle_of_locked (h : DiskInv G m) (hex : Exclusive .disk m) (hg : G t = .locked) :
    DiskState m none := by
  obtain ⟨b, hb, hG⟩ := h.state
  cases b with
  | none => exact hb
  | some u =>
    have hu := h.place u
    have ht := h.place t
    rw [(hG u).mpr rfl] at hu
    rw [hg] at ht
    have hut := hex.unique u t hu.1 ht
    subst hut
    cases hg.symm.trans ((hG u).mpr rfl)

theorem request (h : DiskInv G m) (hex : Exclusive .disk m) (hg : G t = .locked)
    (ha : m'.active = true) (hp : m'.pending = m.pending + 1) (hs : m'.semaphore = m.semaphore)
    (htr : m'.trace = .request t :: m.trace) : DiskInv (Function.update G t .requested) m' := by
  obtain ⟨-, hp₀, hv₀, ho₀⟩ := h.idle_of_locked hex hg
  have ht := h.place t
  rw [hg] at ht
  have hh : ∀ u, holds .disk u m'.trace = holds .disk u m.trace := fun u => by
    rw [htr]
    exact since_cons_of_not rfl rfl
  refine h.step ⟨(hh t).trans ht, ?_⟩ (fun u hu hat => ?_) ⟨some t, .inl ⟨ha, ?_, ?_, ?_⟩,
    fun u => ?_⟩ ?_
  · rw [htr]
    exact since_cons_on (by simp)
  · refine hat.congr (hh u) ?_ fun hm => ?_
    · rw [htr]
      exact since_cons_of_not (by simp [Ne.symm hu]) rfl
    · simpa [htr, outstanding, hu] using hm
  · rw [hp, hp₀]
  · rw [hs]
    exact hv₀
  · rw [htr, outstanding, ho₀]
    rfl
  · rcases eq_or_ne u t with rfl | hu
    · simp
    · have hne : G u ≠ .requested := fun hu' => by
        have hat := h.place u
        rw [hu'] at hat
        exact hu (hex.unique u t hat.1 ht)
      simp [hu, hne, Ne.symm hu]
  · rw [htr]
    exact ⟨by simp, h.returns⟩

theorem notice (h : DiskInv G m) (hg : G t = .requested) (hv : (m.semaphore .disk).value ≠ 0) :
    DiskInv (Function.update G t .served) (m.setSched (m.toSched.down .disk)) := by
  have hf := frame_down m .disk
  have ht := h.place t
  rw [hg] at ht
  obtain ⟨b, hb, hG⟩ := h.state
  obtain rfl := (hG t).mp hg
  obtain ⟨ha, hp, hv₁, ho⟩ := hb.resolve_left fun hb => hv hb.2.2.1
  have hout : outstanding (m.toSched.down .disk).trace = [] :=
    (outstanding_of_frame hf (by simp)).trans ho
  have hreq : ∀ u, requested u (m.toSched.down .disk).trace = requested u m.trace := fun u =>
    requested_of_frame hf (by simp) (by simp) u
  refine h.step ⟨(hreq t).trans ht.2, fun hm => ?_⟩ (fun u hu hat => ?_) ⟨none, ⟨ha, hp, ?_, hout⟩,
    fun u => ?_⟩ ?_
  · have hm : t ∈ outstanding (m.toSched.down .disk).trace := hm
    simp [hout] at hm
  · refine hat.congr (holds_of_frame hf (by simp) u) (hreq u) fun hm hm' => hm ?_
    rwa [outstanding_of_frame hf (by simp)] at hm'
  · simp [Sched.down, hv₁]
  · rcases eq_or_ne u t with rfl | hu
    · simp
    · rw [Function.update_of_ne hu, hG u]
      simp [Ne.symm hu]
  · exact (returnsServed_of_frame hf (by simp)).mpr h.returns

theorem note {e : Event} (h : DiskInv G m) (he : e.obj = some .calls)
    (hat : DiskAt (m.setSched (m.toSched.note e)) t p)
    (hp : p = .requested ↔ G t = .requested) (hother : ∀ u, u ≠ t → entersDisk u e = false)
    (hret : ∀ u c, e = .leave u c → c.usesDisk = true → requested u m.trace = true ∧
      u ∉ outstanding m.trace) :
    DiskInv (Function.update G t p) (m.setSched (m.toSched.note e)) := by
  have hf : Frame (· = .calls) m (m.setSched (m.toSched.note e)) := .note m (by simp [he])
  have hout := outstanding_of_frame hf (by simp)
  refine h.step hat (fun u hu hat => ?_) ?_ ⟨hret, h.returns⟩
  · refine hat.congr (holds_of_frame hf (by simp) u) (since_cons_of_not ?_ (hother u hu)) fun hm =>
      hout ▸ hm
    refine decide_eq_false fun h => ?_
    rw [h] at he
    cases he
  · obtain ⟨b, hb, hG⟩ := h.state
    exact ⟨b, hb.congr rfl rfl rfl hout, update_requested hG hp⟩

theorem handleInterrupt (h : DiskInv G m) (hp : 0 < m.pending) : DiskInv G m.handleInterrupt := by
  obtain ⟨b, hb, hG⟩ := h.state
  cases b with
  | none =>
    rw [hb.2.1] at hp
    cases hp
  | some t =>
    obtain ⟨ha, hp, hv, ho⟩ : m.active = true ∧ m.pending = 1 ∧ (m.semaphore .disk).value = 0 ∧
        outstanding m.trace = [t] := by
      rcases hb with hb | hb
      · exact hb
      · rw [hb.2.1] at hp
        cases hp
    have hnote : Frame (· = .disk) m (m.setSched (m.toSched.note .interrupt)) :=
      .note m (by simp [Event.obj])
    have hup := frame_up (m.setSched (m.toSched.note .interrupt)) .disk none
    have hout : outstanding m.handleInterrupt.trace = [] := by
      refine (outstanding_of_frame hup (by simp)).trans ?_
      change (outstanding m.trace).tail = []
      rw [ho]
      rfl
    have hreq : ∀ u, requested u m.handleInterrupt.trace = requested u m.trace := fun u =>
      (requested_of_frame hup (by simp) (by simp) u).trans (since_cons_of_not rfl rfl)
    refine ⟨⟨some t, .inr ⟨rfl, ?_, ?_, hout⟩, hG⟩, fun u => ?_, ?_⟩
    · simp [Machine.handleInterrupt, Machine.setSched, hp]
    · refine (Sched.value_up_self none).trans ?_
      simp [hv]
    · refine (h.place u).congr ?_ (hreq u) fun _ => ?_
      · exact (holds_of_frame hup (by simp) u).trans (holds_of_frame hnote (by simp) u)
      · simp [hout]
    · exact (returnsServed_of_frame hup (by simp)).mpr ⟨by simp, h.returns⟩

theorem interrupt (h : DiskInv G m) {i : Irq} (hi : m.interrupt i = some m') : DiskInv G m' := by
  obtain rfl | ⟨n, rfl⟩ | ⟨hp, rfl⟩ | ⟨c, -, rfl⟩ | ⟨-, rfl⟩ | ⟨buffer, -, -, rfl⟩ | rfl :=
    Machine.interrupt_cases hi
  · exact h
  · exact h.frame (frame_up m (.user n) none) (by simp)
  · exact h.handleInterrupt hp
  · exact h.frame (readChar_frame m c) (by simp)
  · exact h.frame (writeDone_frame m) (by simp)
  · exact h.frame (readPacket_frame m buffer) (by simp)
  · exact h.frame (sendDone_frame m) (by simp)

theorem handle (h : DiskInv G m) {is : List Irq} (hi : m.handle is = some m') : DiskInv G m' := by
  induction is generalizing m with
  | nil =>
    cases hi
    exact h
  | cons i is ih =>
    obtain ⟨m₁, h₁, hi⟩ := Option.bind_eq_some_iff.mp hi
    exact ih (h.interrupt h₁) hi

end DiskInv
end invariant

/-! ## The routines -/

def diskDiscipline : Discipline ops Machine Thread Choice DiskPos where
  Inv := DiskInv
  Allowed m _ _ _ := Exclusive .disk m
  Legal o := o ≠ .assert .notActive false

section routines
variable {t : Thread} {g : DiskPos}

theorem disk_within {α : Type} {T : Obj → Prop} {prog : Prog α} (hp : prog.Uses (Op.Within T))
    (hT : Apart T diskObjs) (ha : ¬ T (.assertion .notActive)) :
    platform.Safe diskDiscipline t prog (fun _ g' => g' = g) g := by
  refine Safe.of_uses (hp.mono fun o ho => ⟨?_, fun G m x e hI _ he => ?_⟩)
  · rintro rfl
    obtain ⟨now, h⟩ | ho := ho
    · cases h
    · exact ha (ho _ rfl)
  · by_cases hl : ∃ now, o = .setLevel now
    · obtain ⟨now, rfl⟩ := hl
      obtain ⟨m₁, is, h₁, hf⟩ := setLevel_frame he
      exact (DiskInv.handle hI h₁).frame hf apart_false
    · have ho := ho.resolve_left hl
      exact DiskInv.frame hI (exec_frame (fun now hn => hl ⟨now, hn⟩) he)
        fun y hy => mt (ho y) (hT y hy)

theorem disk_setLevel (now : IntStatus) :
    platform.Safe diskDiscipline t (setLevel now) (fun _ g' => g' = g) g :=
  disk_within (T := fun _ => False) (within_setLevel now) apart_false not_false

theorem disk_setHolder (v : Option Thread) :
    platform.Safe diskDiscipline t (setHolder .disk v) (fun _ g' => g' = g) g :=
  disk_within (T := (· = .holder .disk)) (within_perform (.inr fun _ h => h)) (by simp) (by simp)

theorem disk_acquire :
    platform.Safe diskDiscipline t (Lock.acquire .disk) (fun _ g' => g' = .locked) .out := by
  refine safe_acquire Op.noConfusion (safe_p (fun now _ _ => disk_setLevel now) ?_)
    (disk_setHolder _)
  refine safe_takeValue Op.noConfusion (fun G m hI hg _ _ _ => ?_) fun G m x hI hg _ ht _ _ => ?_
  · have hlock := DiskInv.lockStep (t := t) (p := .out) hI (frame_park m (.lock .disk))
      (fun u _ => since_cons_of_not rfl rfl) trivial (by simp [hg])
    rwa [← hg, Function.update_eq_self] at hlock
  · refine ⟨.locked, DiskInv.lockStep hI (frame_down m (.lock .disk))
      (fun u hu => ?_) ?_ (by simp [hg]), rfl⟩
    · exact (holds_down u).trans (by simp [ht, hu])
    · exact (holds_down t).trans (by simp [ht])

theorem disk_v :
    platform.Safe diskDiscipline t (Semaphore.v (.lock .disk))
      (fun _ g' => g' = .served) .served := by
  refine safe_v (fun now _ _ => disk_setLevel now) ?_
  refine safe_once rfl Op.noConfusion fun G m x r m' hI hg _ ht _ he => ?_
  cases he
  have hat := DiskInv.place hI t
  rw [hg] at hat
  have hf := frame_up m (.lock .disk) (some m.currentThread)
  refine ⟨.served, DiskInv.lockStep hI hf (fun u hu => ?_) ⟨?_, ?_⟩ (by simp [hg]), rfl⟩
  · exact (holds_up u).trans (by simp [ht, hu])
  · exact (requested_of_frame hf (by simp) (by simp) t).trans hat.1
  · rw [outstanding_of_frame hf (by simp)]
    exact hat.2

theorem disk_release :
    platform.Safe diskDiscipline t (Lock.release .disk) (fun _ g' => g' = .served) .served := by
  have hheld : platform.Safe diskDiscipline t (Lock.isHeldByCurrentThread .disk)
    (fun _ g' => g' = .served) .served :=
    disk_within (T := fun _ => False) (within_isHeldByCurrentThread _) apart_false not_false
  refine safe_release .served (hheld.mono fun held _ hg => ?_) disk_v fun _ hg =>
    hg ▸ disk_setHolder none
  cases held <;> exact hg

theorem disk_checkRequest (n : Int) :
    platform.Safe diskDiscipline t (SynchDisk.checkRequest n)
      (fun _ g' => g' = .locked) .locked := by
  refine Safe.bind (Q := fun b g' => b = false ∧ g' = .locked) ?_ fun b _ hg => ?_
  · refine safe_once rfl Op.noConfusion fun G m x r m' hI hg hA _ _ he => ?_
    cases he
    refine ⟨.locked, ?_, (DiskInv.idle_of_locked hI hA hg).1, rfl⟩
    rwa [← hg, Function.update_eq_self]
  · obtain ⟨rfl, rfl⟩ := hg
    refine Safe.bind (Q := fun _ g' => g' = .locked) ?_ fun _ _ hg => ?_
    · refine safe_look rfl (Op.assert_true_ne _ _) fun G m x r m' _ _ _ he => ?_
      cases he
      exact ⟨rfl, rfl⟩
    · subst hg
      exact disk_within (T := (· = .assertion .sectorNumber)) (within_perform (.inr fun _ h => h))
        (by simp) (by simp)

theorem disk_p :
    platform.Safe diskDiscipline t (Semaphore.p .disk) (fun _ g' => g' = .served) .requested := by
  refine safe_p (fun now _ _ => disk_setLevel now) (safe_takeValue Op.noConfusion
    (fun G m hI _ _ _ _ => ?_)
    fun G m x hI hg _ _ _ hv => ⟨.served, DiskInv.notice hI hg hv, rfl⟩)
  refine DiskInv.congr hI (frame_park m .disk) (by simp) ?_ (by simp) (by simp)
  simp [Sched.park]

theorem disk_readSector (n : Int) :
    platform.Safe diskDiscipline t (SynchDisk.readSector n) (fun _ g' => g' = .served) .out := by
  refine disk_acquire.bind_eq fun _ => ?_
  refine (disk_checkRequest n).bind_eq fun _ => ?_
  refine Safe.bind (Q := fun _ g' => g' = .requested) ?_ fun data _ hg => ?_
  · refine safe_once rfl Op.noConfusion fun G m x r m' hI hg hA ht _ he => ?_
    cases he
    exact ⟨.requested, DiskInv.request hI hA hg rfl rfl rfl (by rw [← ht]; rfl), rfl⟩
  · subst hg
    refine disk_p.bind_eq fun _ => ?_
    exact disk_release.bind_eq fun _ => rfl

theorem disk_writeSector (n : Int) (d : Sector) :
    platform.Safe diskDiscipline t (SynchDisk.writeSector n d) (fun _ g' => g' = .served) .out := by
  refine disk_acquire.bind_eq fun _ => ?_
  refine (disk_checkRequest n).bind_eq fun _ => ?_
  refine Safe.bind (Q := fun _ g' => g' = .requested) ?_ fun _ _ hg => ?_
  · refine safe_once rfl Op.noConfusion fun G m x r m' hI hg hA ht _ he => ?_
    cases he
    exact ⟨.requested, DiskInv.request hI hA hg rfl rfl rfl (by rw [← ht]; rfl), rfl⟩
  · subst hg
    refine disk_p.bind_eq fun _ => ?_
    exact disk_release

theorem disk_enter (c : Call) :
    platform.Safe diskDiscipline t (enter c) (fun _ g' => g' = .out) .out := by
  refine safe_once rfl Op.noConfusion fun G m x r m' hI hg _ ht _ he => ?_
  cases he
  refine ⟨.out, DiskInv.note hI rfl trivial (by simp [hg]) (fun u hu => ?_) (by simp), rfl⟩
  simp [entersDisk, ht, Ne.symm hu]

theorem disk_leave (c : Call) (hg : c.usesDisk = true → g = .served) (hr : g ≠ .requested) :
    platform.Safe diskDiscipline t (leave c) (fun _ g' => g' = .out) g := by
  refine safe_once rfl Op.noConfusion fun G m x r m' hI hG _ ht _ he => ?_
  cases he
  refine ⟨.out, DiskInv.note hI rfl trivial (by simp [hG, hr])
    (fun u hu => rfl) fun u c' hu hc => ?_, rfl⟩
  cases hu
  have hat := DiskInv.place hI t
  rw [hG, hg hc] at hat
  rw [ht]
  exact hat

theorem disk_call (c : Call) :
    platform.Safe diskDiscipline t c.prog (fun _ g' => g' = .out) .out := by
  have hprog : ∀ g, (c.usesDisk = true → g = .served) → g ≠ .requested →
      platform.Safe diskDiscipline t c.body (fun _ g' => g' = g) .out →
      platform.Safe diskDiscipline t c.prog (fun _ g' => g' = .out) .out := fun g hg hr hbody =>
    safe_prog (disk_enter c) hbody (disk_leave c hg hr)
  cases c with
  | readSector n => exact hprog .served (fun _ => rfl) DiskPos.noConfusion (disk_readSector n)
  | writeSector n d => exact hprog .served (fun _ => rfl) DiskPos.noConfusion (disk_writeSector n d)
  | _ =>
    refine hprog .out Bool.noConfusion DiskPos.noConfusion (disk_within (Call.body_within _) ?_ ?_)
    all_goals simp [Call.touches]

end routines

theorem DiskInv.initial (config : NetConfig) (user : Nat → Int) :
    DiskInv (fun _ => .out) ((Machine.initial (initialValue user)).named config) where
  state := ⟨none, ⟨rfl, rfl, rfl, rfl⟩, fun _ => ⟨nofun, nofun⟩⟩
  place _ := trivial
  returns := trivial

variable {user : Nat → Int} {client : Thread → Client} {c : Tasks ops Machine Unit Thread}

/-- Whatever threads call `ReadSector` and `WriteSector`: the disk is never active when a request
is made, at most one request is outstanding, the semaphore never has more than one permit, and
no call returns before the interrupt of its own request. -/
theorem synchDisk_protocol (h : platform.Run (fun _ _ => True) (start user client) c) :
    (∀ t k, c.prog t ≠ .call (.assert .notActive false) k) ∧
    c.state.pending = (outstanding c.state.trace).length ∧ c.state.pending ≤ 1 ∧
    (c.state.semaphore .disk).value ≤ 1 ∧ ReturnsServed c.state.trace := by
  have hmeets : platform.Run diskDiscipline.Meets (start user client) c := by
    refine (h.strengthen fun c' h' => exclusive_of_run .disk h').mono fun c' mv hmv => ?_
    cases mv with
    | env x => trivial
    | act t x => exact fun o k _ => hmv.2
  obtain ⟨G, hI, hsafe⟩ := exists_ghost (D := diskDiscipline) (R := fun _ _ g => g = .out) (g := .out)
    (DiskInv.initial _ user)
    (fun G x m m' hI he => by
      obtain ⟨m₁, is, h₁, hf⟩ := env_frame he
      exact (DiskInv.handle hI h₁).frame hf apart_false)
    (fun t => disk_setLevel .on)
    (fun t o _ _ g _ hg => by
      subst hg
      exact disk_call o)
    (fun t _ g hg => by
      subst hg
      exact (disk_call .finish).mono fun _ _ _ => trivial)
    (fun _ => rfl) (fun t => follows_any (client t)) hmeets
  obtain ⟨b, hb, -⟩ := DiskInv.state hI
  refine ⟨fun t k hk => (hsafe t).legal hk rfl, ?_, ?_, ?_, DiskInv.returns hI⟩
  all_goals
    cases b with
    | none =>
      obtain ⟨-, hp, hv, ho⟩ := hb
      simp [hp, hv, ho]
    | some t => obtain ⟨-, hp, hv, ho⟩ | ⟨-, hp, hv, ho⟩ := hb <;> simp [hp, hv, ho]

/-- The main thread has read a sector: it has made its request, and the interrupt has come. -/
theorem synchDisk_protocol_read :
    ∃ c, platform.Run (fun _ _ => True) (start (fun _ => 0) fun _ => do
        let _ ← perform (S := calls) (.readSector 0)) c ∧
      requested 0 c.state.trace = true ∧ outstanding c.state.trace = [] ∧ c.state.pending ≤ 1 ∧
      (c.state.semaphore .disk).value ≤ 1 ∧ ReturnsServed c.state.trace := by
  have h := run_of_replay (P := platform) (c := start (fun _ => 0) fun _ => do
      let _ ← perform (S := calls) (.readSector 0))
    (List.replicate 12 (.act 0 ⟨[], false, 0⟩) ++ .env ⟨[.disk], false, 0⟩ :: .env ⟨[], false, 0⟩ ::
      List.replicate 9 (.act 0 ⟨[], false, 0⟩)) rfl
  have hdisk := synchDisk_protocol h
  exact ⟨_, h, rfl, rfl, hdisk.2.2⟩

end Nachos.Threads
