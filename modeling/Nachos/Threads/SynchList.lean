import Nachos.Threads.Lock

/-! `SynchList` is a first-in first-out queue. A thread that has found the list not empty has the
lock of the list until it has taken an item, so nobody else empties the list in between. -/

namespace Nachos.Threads
open Lib Program Platform

def putItems (q : Nat) : List Event → List Nat
  | [] => []
  | .put q' item :: h => if q' = q then putItems q h ++ [item] else putItems q h
  | _ :: h => putItems q h

def tookItems (q : Nat) : List Event → List Nat
  | [] => []
  | .took q' item :: h => if q' = q then tookItems q h ++ [item] else tookItems q h
  | _ :: h => tookItems q h

def nonNull (_ : Unit) : Call → Option Unit
  | .append _ 0 => none
  | _ => some ()

inductive ListPos where
  | out
  /-- The thread has the lock of list `q`. -/
  | locked (q : Nat)
  /-- It has also seen that the list is not empty. -/
  | sure (q : Nat)

def ListAt (m : Machine) (t : Thread) : ListPos → Prop
  | .out => True
  | .locked q => holds (.list q) t m.trace = true
  | .sure q => holds (.list q) t m.trace = true ∧ m.list q ≠ []

structure ListInv (G : Thread → ListPos) (m : Machine) : Prop where
  fifo : ∀ q, putItems q m.trace = tookItems q m.trace ++ m.list q
  nonNull : ∀ q, ∀ item ∈ m.list q, item ≠ 0
  place : ∀ t, ListAt m t (G t)

section invariant
variable {q : Nat} {t u : Thread} {p : ListPos} {G : Thread → ListPos} {m m' : Machine}
  {T : Obj → Prop}
  {o : Op} {x : Choice} {e : Effect (ops.Res o) Machine}

theorem items_of_frame (hf : Frame T m m') (hl : ¬ T (.list q)) :
    putItems q m'.trace = putItems q m.trace ∧ tookItems q m'.trace = tookItems q m.trace := by
  constructor
  · refine hf.trace_eq fun e h he => ?_
    cases e with
    | put q' item =>
      have hq : q' ≠ q := fun h => hl (h ▸ he _ rfl)
      simp [putItems, hq]
    | _ => rfl
  · refine hf.trace_eq fun e h he => ?_
    cases e with
    | took q' item =>
      have hq : q' ≠ q := fun h => hl (h ▸ he _ rfl)
      simp [tookItems, hq]
    | _ => rfl

theorem ListAt.congr (h : ListAt m u p)
    (hh : ∀ q, holds (.list q) u m'.trace = holds (.list q) u m.trace)
    (hl : ∀ q, m.list q ≠ [] → p = .sure q → m'.list q ≠ []) : ListAt m' u p := by
  cases p with
  | out => trivial
  | locked q => exact (hh q).trans h
  | sure q => exact ⟨(hh q).trans h.1, hl q h.2 rfl⟩

def listObjs (x : Obj) : Prop := ∃ q, x = .semaphore (.lock (.list q)) ∨ x = .list q

@[simp] theorem apart_listObjs :
    Apart T listObjs ↔ (∀ q, ¬ T (.semaphore (.lock (.list q)))) ∧ ∀ q, ¬ T (.list q) := by
  simp [Apart, listObjs, or_imp, forall_and]

theorem apart_shared_listObjs : Apart Obj.Shared listObjs := by
  simp [Obj.Shared]

namespace ListInv

theorem of_frame {G' : Thread → ListPos} (h : ListInv G m) (hf : Frame T m m')
    (hl : ∀ q, ¬ T (.list q))
    (hplace : ∀ u, ListAt m' u (G' u)) : ListInv G' m' where
  fifo q := by
    rw [(items_of_frame hf (hl q)).1, (items_of_frame hf (hl q)).2, hf.list q (hl q)]
    exact h.fifo q
  nonNull q := by
    rw [hf.list q (hl q)]
    exact h.nonNull q
  place := hplace

theorem frame (h : ListInv G m) (hf : Frame T m m') (hT : Apart T listObjs) :
    ListInv G m' := by
  obtain ⟨hs, hl⟩ := apart_listObjs.mp hT
  exact h.of_frame hf hl fun u =>
    (h.place u).congr (fun q => holds_of_frame hf (hs q) u) fun q hq _ => hf.list q (hl q) ▸ hq

theorem step (h : ListInv G m) (he : platform.exec t o x m = some e)
    (ho : ∀ q, ¬ o.touches (.list q))
    (hat : ListAt e.state t p) : ListInv (Function.update G t p) e.state := by
  have hf := exec_within (o := o) (.inr fun _ hx => hx) he
  have hl : ∀ q, ¬ (o.touches (.list q) ∨ (Obj.list q).Shared) := by simp [Obj.Shared, ho]
  refine h.of_frame hf hl fun u => ?_
  rcases eq_or_ne u t with rfl | hu
  · rwa [Function.update_self]
  · rw [Function.update_of_ne hu]
    exact (h.place u).congr (fun q => holds_exec he hu) fun q hq _ => hf.list q (hl q) ▸ hq

theorem append (h : ListInv G m) {q item : Nat} (hi : item ≠ 0) :
    ListInv G ({ m with list := Function.update m.list q (m.list q ++ [item]) }.setSched
      (m.toSched.note (.put q item))) where
  fifo q' := by
    by_cases hq : q' = q
    · subst hq
      simp [Machine.setSched, putItems, tookItems, h.fifo q']
    · simp [Machine.setSched, putItems, tookItems, hq, Ne.symm hq, h.fifo q']
  nonNull q' := by
    by_cases hq : q' = q
    · subst hq
      simp only [Machine.setSched, Function.update_self, List.mem_append, List.mem_singleton]
      rintro i (hm | rfl)
      · exact h.nonNull q' i hm
      · exact hi
    · simpa [Machine.setSched, hq] using h.nonNull q'
  place u := by
    refine (h.place u).congr (fun _ => since_cons_of_not rfl rfl) fun q' hq' _ => ?_
    by_cases hq : q' = q
    · subst hq
      simp [Machine.setSched]
    · simpa [Machine.setSched, hq] using hq'

theorem remove (h : ListInv G m) {q item : Nat} {rest : List Nat} (hex : Exclusive (.list q) m)
    (hg : G t = .sure q) (hm : m.list q = item :: rest) :
    ListInv (Function.update G t .out) ({ m with list := Function.update m.list q rest }.setSched
      (m.toSched.note (.took q item))) where
  fifo q' := by
    have hf := h.fifo q'
    by_cases hq : q' = q
    · subst hq
      simp [Machine.setSched, putItems, tookItems, hf, hm]
    · simp [Machine.setSched, putItems, tookItems, hq, Ne.symm hq, hf]
  nonNull q' := by
    have hn := h.nonNull q'
    by_cases hq : q' = q
    · subst hq
      rw [hm] at hn
      simpa [Machine.setSched] using fun i hi => hn i (List.mem_cons_of_mem _ hi)
    · simpa [Machine.setSched, hq] using hn
  place u := by
    rcases eq_or_ne u t with rfl | hu
    · rw [Function.update_self]
      trivial
    · rw [Function.update_of_ne hu]
      refine (h.place u).congr (fun _ => since_cons_of_not rfl rfl) fun q' hq' hs => ?_
      by_cases hq : q' = q
      · subst hq
        have hat := h.place u
        have hat' := h.place t
        rw [hs] at hat
        rw [hg] at hat'
        exact absurd (hex.unique u t hat.1 hat'.1) hu
      · simpa [Machine.setSched, hq] using hq'

end ListInv
end invariant

/-! ## The routines -/

def listDiscipline : Discipline ops Machine Thread Choice ListPos where
  Inv := ListInv
  Allowed m _ _ _ := ∀ q, Exclusive (.list q) m
  Legal o := o ≠ .assert .itemNotNull false

section routines
variable {q : Nat} {t : Thread} {g : ListPos}

theorem list_within {α : Type} {T : Obj → Prop} {prog : Prog α} (hp : prog.Uses (Op.Within T))
    (hT : Apart T listObjs) (ha : ¬ T (.assertion .itemNotNull)) :
    platform.Safe listDiscipline t prog (fun _ g' => g' = g) g := by
  refine Safe.of_uses (hp.mono fun o ho => ⟨?_, fun G m x e hI _ he => ?_⟩)
  · rintro rfl
    obtain ⟨now, h⟩ | ho := ho
    · cases h
    · exact ha (ho _ rfl)
  · exact ListInv.frame hI (exec_within ho he) (hT.or_shared apart_shared_listObjs)

theorem list_setLevel (now : IntStatus) :
    platform.Safe listDiscipline t (setLevel now) (fun _ g' => g' = g) g :=
  list_within (T := fun _ => False) (within_setLevel now) apart_false not_false

theorem list_setHolder (l : LockId) (v : Option Thread) :
    platform.Safe listDiscipline t (setHolder l v) (fun _ g' => g' = g) g :=
  list_within (T := (· = .holder l)) (within_perform (.inr fun _ h => h)) (by simp) (by simp)

theorem list_acquire :
    platform.Safe listDiscipline t (Lock.acquire (.list q)) (fun _ g' => g' = .locked q) g := by
  refine safe_acquire Op.noConfusion (safe_p (fun now _ _ => list_setLevel now) ?_)
    (list_setHolder _ _)
  refine ⟨Op.noConfusion, fun G m x hI hg _ => ⟨fun r m' he =>
    ⟨_, ListInv.step hI he (by simp [Op.touches]) ?_, rfl⟩, fun m' he => ?_⟩⟩
  · obtain ⟨ht, -, he⟩ := exec_eq_some he
    simp only [Machine.execute] at he
    split at he
    · split at he <;> cases he
    · cases he
      exact (holds_down t).trans (by simp [ht])
  · obtain ⟨-, -, he⟩ := exec_eq_some he
    obtain ⟨s, -, -, rfl⟩ | ⟨now, h, -⟩ := Machine.execute_again he
    · refine ListInv.of_frame hI (frame_park m s) (by simp) fun u => ?_
      exact (ListInv.place hI u).congr (fun _ => since_cons_of_not rfl rfl) fun _ hq _ => hq
    · cases h

theorem list_v :
    platform.Safe listDiscipline t (Semaphore.v (.lock (.list q))) (fun _ g' => g' = .out) g := by
  refine safe_v (fun now _ _ => list_setLevel now) ?_
  refine safe_once rfl Op.noConfusion fun G m x r m' hI _ _ ht ha he => ?_
  exact ⟨.out, ListInv.step hI (exec_of_execute ht ha he) (by simp [Op.touches]) trivial, rfl⟩

theorem list_release :
    platform.Safe listDiscipline t (Lock.release (.list q)) (fun _ g' => g' = .out) g := by
  refine safe_release .out (safe_isHeldByCurrentThread Op.noConfusion ?_) list_v
    fun _ hg => hg ▸ list_setHolder _ _
  refine safe_once rfl Op.noConfusion fun G m x v m' hI _ _ ht ha he => ?_
  refine ⟨.out, ListInv.step hI (exec_of_execute ht ha he) (by simp [Op.touches]) trivial, ?_⟩
  split <;> rfl

theorem list_wait :
    platform.Safe listDiscipline t (Condition.wait (.listEmpty q) (.list q))
      (fun _ g' => g' = .locked q) g := by
  have hsleep : platform.Safe listDiscipline t (sleepOn (.listEmpty q))
    (fun _ g' => g' = .out) .out :=
    list_within (T := (· = .condition (.listEmpty q))) (within_perform (.inr fun _ h => h))
      (by simp)
      (by simp)
  exact list_release.bind_eq fun _ => (list_setLevel .off).bind_eq fun old =>
    hsleep.bind_eq fun _ =>
    (list_setLevel old).bind_eq fun _ => list_acquire

theorem list_isEmpty :
    platform.Safe listDiscipline t (listIsEmpty q)
      (fun b g' => if b then g' = .locked q else g' = .sure q)
      (.locked q) := by
  refine safe_once rfl Op.noConfusion fun G m x r m' hI hg _ ht ha he => ?_
  have hexec := exec_of_execute ht ha he
  have hat := ListInv.place hI t
  rw [hg] at hat
  cases he
  by_cases hq : m.list q = []
  · exact ⟨.locked q, ListInv.step hI hexec (by simp [Op.touches]) hat, by simp [hq]⟩
  · exact ⟨.sure q, ListInv.step hI hexec (by simp [Op.touches]) ⟨hat, hq⟩, by simp [hq]⟩

theorem list_listRemove :
    platform.Safe listDiscipline t (listRemove q) (fun item g' => item ≠ 0 ∧ g' = .out)
      (.sure q) := by
  refine safe_once rfl Op.noConfusion fun G m x r m' hI hg hA _ _ he => ?_
  have hat := ListInv.place hI t
  rw [hg] at hat
  simp only [Machine.execute] at he
  split at he
  · next hm => exact absurd hm hat.2
  · next item rest hm =>
    cases he
    refine ⟨.out, ListInv.remove hI (hA q) hg hm, ?_, rfl⟩
    exact ListInv.nonNull hI q r (hm ▸ List.mem_cons_self ..)

theorem list_append {item : Nat} (hi : item ≠ 0) :
    platform.Safe listDiscipline t (SynchList.append q item) (fun _ g' => g' = .out) g := by
  refine list_acquire.bind_eq fun _ => ?_
  have happend : platform.Safe listDiscipline t (listAppend q item) (fun _ g' => g' = .locked q)
    (.locked q) := by
    refine safe_once rfl Op.noConfusion fun G m x r m' hI hg _ _ _ he => ?_
    cases he
    refine ⟨.locked q, ?_, rfl⟩
    rw [← hg, Function.update_eq_self]
    exact ListInv.append hI hi
  have hsignal : platform.Safe listDiscipline t (Condition.signal (.listEmpty q))
    (fun _ g' => g' = .locked q)
      (.locked q) :=
    list_within (T := (· = .condition (.listEmpty q))) (within_signal rfl) (by simp) (by simp)
  exact happend.bind_eq fun _ => hsignal.bind_eq fun _ => list_release

theorem list_remove :
    platform.Safe listDiscipline t (SynchList.remove q) (fun _ g' => g' = .out) g := by
  refine list_acquire.bind_eq fun _ => ?_
  have hloop : platform.Safe listDiscipline t
      (whileLoop (listIsEmpty q) (Condition.wait (.listEmpty q) (.list q)))
        (fun _ g' => g' = .sure q) (.locked q) := by
    refine safe_whileLoop (I := (· = .locked q)) (B := (· = .locked q)) Op.noConfusion
      Op.noConfusion
      (fun g hg => ?_) (fun g _ => list_wait) rfl
    subst hg
    exact list_isEmpty
  refine hloop.bind_eq fun _ => ?_
  refine list_listRemove.bind fun item _ hg => ?_
  obtain ⟨hi, rfl⟩ := hg
  have hassert : platform.Safe listDiscipline t (assert .itemNotNull (item != 0))
    (fun _ g' => g' = .out) .out := by
    rw [bne_iff_ne.mpr hi]
    refine safe_once rfl (Op.assert_true_ne _ _) fun G m x r m' hI hg _ ht ha he => ?_
    exact ⟨.out, ListInv.step hI (exec_of_execute ht ha he) (by simp [Op.touches]) trivial, rfl⟩
  refine hassert.bind_eq fun _ => ?_
  exact list_release.bind_eq fun _ => rfl

theorem list_assert (a : Assertion) (b : Bool) (ha : a ≠ .itemNotNull) :
    platform.Safe listDiscipline t (assert a b) (fun _ g' => g' = g) g :=
  list_within (T := (· = .assertion a)) (within_perform (.inr fun _ h => h)) (by simp)
    (by simp [Ne.symm ha])

theorem list_getPostOffice :
    platform.Safe listDiscipline t getPostOffice (fun _ g' => g' = g) g :=
  list_within (T := fun _ => False) (within_perform (.inr fun _ => id)) apart_false not_false

theorem list_receive (box : Int) :
    platform.Safe listDiscipline t (PostOffice.receive box) (fun _ g' => g' = .out) .out := by
  have hget : platform.Safe listDiscipline t (MailBox.get box.toNat) (fun _ g' => g' = .out)
      .out := by
    refine list_remove.bind_eq fun item => ?_
    exact list_within (T := (· = .postOffice)) (within_perform (.inr fun _ h => h)) (by simp)
      (by simp)
  exact list_getPostOffice.bind_eq fun office => (list_assert _ _ (by decide)).bind_eq fun _ =>
    hget.bind_eq fun mail => (list_assert _ _ (by decide)).bind_eq fun _ => rfl

theorem list_newMail (mail : Mail) :
    platform.Safe listDiscipline t (newMail mail) (fun item g' => item ≠ 0 ∧ g' = g) g := by
  refine safe_once rfl Op.noConfusion fun G m x r m' hI hg _ ht ha he => ?_
  have hexec := exec_of_execute ht ha he
  have hI' := ListInv.frame hI (exec_frame (by simp) hexec) (by simp [Op.touches])
  cases he
  refine ⟨g, ?_, Nat.succ_ne_zero _, rfl⟩
  rwa [← hg, Function.update_eq_self]

theorem list_deliver (buffer : List Byte) :
    platform.Safe listDiscipline t (PostOffice.deliver buffer) (fun _ g' => g' = .out) .out := by
  have hp : platform.Safe listDiscipline t (Semaphore.p .messageAvailable)
      (fun _ g' => g' = .out) .out :=
    list_within (T := (· = .semaphore .messageAvailable)) (within_p rfl) (by simp) (by simp)
  have hreceive : platform.Safe listDiscipline t Network.receive (fun _ g' => g' = .out) .out :=
    list_within (T := (· = .inbox)) (within_perform (.inr fun _ h => h)) (by simp) (by simp)
  have hput : ∀ box mail, platform.Safe listDiscipline t (MailBox.put box mail)
      (fun _ g' => g' = .out) .out := fun box mail => by
    refine (list_assert _ _ (by decide)).bind_eq fun _ => (list_newMail _).bind fun item _ hg => ?_
    obtain ⟨hi, rfl⟩ := hg
    exact list_append hi
  exact hp.bind_eq fun _ => hreceive.bind_eq fun packet => list_getPostOffice.bind_eq fun office =>
    (list_assert _ _ (by decide)).bind_eq fun _ => (list_assert _ _ (by decide)).bind_eq fun _ =>
      (hput _ _).bind_eq fun _ => rfl

theorem list_postalDelivery :
    platform.Safe listDiscipline t PostOffice.postalDelivery (fun _ g' => g' = .out) .out := by
  have hgo : ∀ n buffer, platform.Safe listDiscipline t (PostOffice.postalDelivery.go n buffer)
      (fun _ g' => g' = .out) .out := fun n => by
    induction n with
    | zero =>
      exact fun _ => safe_once rfl Op.noConfusion fun G m x r m' _ _ _ _ _ he => by cases he
    | succ n ih => exact fun buffer => (list_deliver buffer).bind_eq fun buffer => ih buffer
  have hrounds : platform.Safe listDiscipline t (perform (S := ops) .rounds)
      (fun _ g' => g' = .out) .out :=
    list_within (T := fun _ => False) (within_perform (.inr fun _ => id)) apart_false not_false
  exact hrounds.bind_eq fun n => hgo n _

theorem list_prog {c : Call}
    (hbody : platform.Safe listDiscipline t c.body (fun _ g' => g' = .out) .out) :
    platform.Safe listDiscipline t c.prog (fun _ g' => g' = .out) .out := by
  have henter : platform.Safe listDiscipline t (enter c) (fun _ g' => g' = .out) .out :=
    list_within (T := (· = .calls)) (within_perform (.inr fun _ h => h)) (by simp) (by simp)
  have hleave : platform.Safe listDiscipline t (leave c) (fun _ g' => g' = .out) .out :=
    list_within (T := (· = .calls)) (within_perform (.inr fun _ h => h)) (by simp) (by simp)
  exact safe_prog henter hbody hleave

theorem list_call {c : Call} (hc : nonNull () c = some ()) :
    platform.Safe listDiscipline t c.prog (fun _ g' => g' = .out) .out := by
  refine list_prog ?_
  cases c with
  | append q item =>
    refine list_append ?_
    rintro rfl
    cases hc
  | remove q => exact list_remove
  | receive box => exact list_receive box
  | postalDelivery => exact list_postalDelivery
  | _ =>
    refine list_within (Call.body_within _) ?_ ?_
    all_goals simp [Call.touches]

end routines

theorem ListInv.initial (config : NetConfig) (user : Nat → Int) :
    ListInv (fun _ => .out) ((Machine.initial (initialValue user)).named config) where
  fifo _ := rfl
  nonNull _ _ hi := absurd hi List.not_mem_nil
  place _ := trivial

variable {user : Nat → Int} {client : Thread → Client} {c : Tasks ops Machine Unit Thread}

theorem listInv_of_run {config : NetConfig} (hclient : ∀ t, Follows nonNull () (client t))
    (h : platform.Run (fun _ _ => True) (startNamed config user client) c) :
    ∃ G, ListInv G c.state ∧
      ∀ t, platform.Safe listDiscipline t (c.prog t) (fun _ _ => True) (G t) := by
  have hmeets : platform.Run listDiscipline.Meets (startNamed config user client) c := by
    refine (h.strengthen fun c' h' q => exclusive_of_run (.list q) h').mono fun c' mv hmv => ?_
    cases mv with
    | env x => trivial
    | act t x => exact fun o k _ => hmv.2
  exact exists_ghost (D := listDiscipline) (R := fun _ _ g => g = .out) (g := .out)
    (ListInv.initial config user)
    (fun G x m m' hI he => by
      obtain ⟨m₁, is, h₁, hf⟩ := env_frame he
      exact (ListInv.frame hI (handle_frame h₁) apart_shared_listObjs).frame hf apart_false)
    (fun t => list_setLevel .on)
    (fun t o _ _ g ho hg => by
      subst hg
      exact list_call ho)
    (fun t _ g hg => by
      subst hg
      exact (list_call (c := .finish) rfl).mono fun _ _ _ => trivial)
    (fun _ => rfl) hclient hmeets

/-- The items taken off a list are the first ones put on it, in the same order, the others are
still there, and no thread comes to a failing assertion. -/
theorem synchList_fifo (hclient : ∀ t, Follows nonNull () (client t))
    (h : platform.Run (fun _ _ => True) (start user client) c) :
    (∀ q, tookItems q c.state.trace <+: putItems q c.state.trace ∧
      putItems q c.state.trace = tookItems q c.state.trace ++ c.state.list q) ∧
    ∀ t k, c.prog t ≠ .call (.assert .itemNotNull false) k := by
  obtain ⟨G, hI, hsafe⟩ := listInv_of_run hclient h
  refine ⟨fun q => ⟨⟨c.state.list q, (hI.fifo q).symm⟩, hI.fifo q⟩, fun t k hk => ?_⟩
  exact (hsafe t).legal hk rfl

def listClient : Client := do
  perform (S := calls) (.append 0 5)
  perform (S := calls) (.append 0 6)
  let _ ← perform (S := calls) (.remove 0)

/-- The main thread has put two items on the list and has taken the first one off. -/
theorem synchList_fifo_removed :
    ∃ c, platform.Run (fun _ _ => True) (start (fun _ => 0) fun _ => listClient) c ∧
      putItems 0 c.state.trace = [5, 6] ∧ tookItems 0 c.state.trace = [5] ∧
      putItems 0 c.state.trace = tookItems 0 c.state.trace ++ c.state.list 0 ∧
      ∀ t k, c.prog t ≠ .call (.assert .itemNotNull false) k := by
  have h := run_of_replay (P := platform) (c := start (fun _ => 0) fun _ => listClient)
    (List.replicate 43 (.act 0 ⟨[], false, 1⟩)) rfl
  have hclient : Follows nonNull () listClient :=
    ⟨(), rfl, fun _ => ⟨(), rfl, fun _ => ⟨(), rfl, fun _ => trivial⟩⟩⟩
  have hfifo := synchList_fifo (fun _ => hclient) h
  exact ⟨_, h, rfl, rfl, (hfifo.1 0).2, hfifo.2⟩

end Nachos.Threads
