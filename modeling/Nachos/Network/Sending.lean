import Nachos.Threads.Frame

/-! What a machine sends. The packets that `Network::Send` gets come from the calls of
`PostOffice::Send` its threads are in, with the machine's own address as the sender. -/

namespace Nachos.Threads
open Lib Program Platform
open scoped List

def callOf (t : Thread) : List Event → Option Call
  | [] => none
  | .enter u c :: h => if u = t then some c else callOf t h
  | _ :: h => callOf t h

/-- The mail that `PostOffice::Send` makes of its arguments. -/
def letter (netAddr : NetworkAddress) (pktHdr : PacketHeader) (mailHdr : MailHeader)
    (data : List Byte) : Mail :=
  ⟨{ pktHdr with sender := netAddr, length := mailHdr.length + 12 }, mailHdr,
    bcopy data mailHdr.length.toNat⟩

def letterOf (netAddr : NetworkAddress) : Option Call → List Mail
  | some (.send pktHdr mailHdr data) => [letter netAddr pktHdr mailHdr data]
  | _ => []

/-- The mail that was passed to `Network::Send`, oldest first, as the callers of
`PostOffice::Send` gave it. -/
def passedMail (netAddr : NetworkAddress) : List Event → List Mail
  | [] => []
  | .sent t _ _ _ :: h => passedMail netAddr h ++ letterOf netAddr (callOf t h)
  | _ :: h => passedMail netAddr h

/-- The packets that got to the socket of machine `r`, oldest first. -/
def sentPackets (r : NetworkAddress) : List Event → List (List Byte)
  | [] => []
  | .sent _ hdr data lost :: h =>
    if hdr.dest = r ∧ lost = false then sentPackets r h ++ [wire hdr data] else sentPackets r h
  | _ :: h => sentPackets r h

/-- Every packet that was sent holds the mail of the call in which it was sent. -/
def PostedOnly (netAddr : NetworkAddress) : List Event → Prop
  | [] => True
  | .sent t hdr data _ :: h =>
    (∃ mail : Mail, letterOf netAddr (callOf t h) = [mail] ∧ mail.Valid ∧
      mail.pktHdr.sender = netAddr ∧ hdr = mail.pktHdr ∧ data = mail.payload) ∧
    PostedOnly netAddr h
  | _ :: h => PostedOnly netAddr h

theorem letter_valid (netAddr : NetworkAddress) (pktHdr : PacketHeader) {mailHdr : MailHeader}
    (data : List Byte) (h : mailHdr.length.toNat ≤ 40) :
    (letter netAddr pktHdr mailHdr data).Valid where
  length := by simp [letter]
  fits := by simpa [letter] using h
  packed := rfl

/-! ## What is on the wire -/

section wires
variable {netAddr r : NetworkAddress} {h : List Event}

/-- The packets in a socket are on the wire what the callers passed for that machine. -/
theorem sentPackets_sublist (hp : PostedOnly netAddr h) :
    (sentPackets r h).map Mail.ofPacket <+
      (passedMail netAddr h).filter (·.pktHdr.dest = r) := by
  induction h with
  | nil => exact List.Sublist.refl _
  | cons e h ih =>
    cases e with
    | sent t hdr data lost =>
      obtain ⟨⟨mail, hmail, hvalid, -, rfl, rfl⟩, hp⟩ := hp
      rw [sentPackets, passedMail, hmail, List.filter_append]
      split
      · next hr =>
        have hfilter : [mail].filter (·.pktHdr.dest = r) = [mail] := by simp [hr.1]
        rw [List.map_append, List.map_singleton, hvalid.ofPacket_wire, hfilter]
        exact (ih hp).append (List.Sublist.refl _)
      · exact (ih hp).trans (List.sublist_append_left ..)
    | _ => exact ih hp

theorem mem_sentPackets (hp : PostedOnly netAddr h) {packet : List Byte}
    (hm : packet ∈ sentPackets r h) :
    ∃ mail : Mail, mail.Valid ∧ mail.pktHdr.sender = netAddr ∧ mail.pktHdr.dest = r ∧
      packet = wire mail.pktHdr mail.payload := by
  induction h with
  | nil => cases hm
  | cons e h ih =>
    cases e with
    | sent t hdr data lost =>
      obtain ⟨⟨mail, -, hvalid, hsender, rfl, rfl⟩, hp⟩ := hp
      rw [sentPackets] at hm
      split at hm
      · next hr =>
        rcases List.mem_append.mp hm with hm | hm
        · exact ih hp hm
        · exact ⟨mail, hvalid, hsender, hr.1, List.mem_singleton.mp hm⟩
      · exact ih hp hm
    | _ => exact ih hp hm

end wires

/-! ## The invariant -/

structure SendInv (netAddr : NetworkAddress) (G : Thread → Option Call) (m : Machine) : Prop where
  address : m.postOffice.netAddr = netAddr
  calling : ∀ t c, G t = some c → callOf t m.trace = some c
  posted : PostedOnly netAddr m.trace

section invariant
variable {netAddr : NetworkAddress} {G : Thread → Option Call} {m m' : Machine} {T : Obj → Prop}
  {t : Thread}

theorem callOf_of_frame (hf : Frame T m m') (hc : ¬ T .calls) (t : Thread) :
    callOf t m'.trace = callOf t m.trace := by
  refine hf.trace_eq fun e h he => ?_
  cases e with
  | enter u c => exact absurd (he _ rfl) hc
  | _ => rfl

theorem postedOnly_of_frame (hf : Frame T m m') (ho : ¬ T .outbox) :
    PostedOnly netAddr m'.trace = PostedOnly netAddr m.trace := by
  refine hf.trace_eq fun e h he => ?_
  cases e with
  | sent u hdr data lost => exact absurd (he _ rfl) ho
  | _ => rfl

def sendObjs (x : Obj) : Prop := x = .outbox ∨ x = .calls

@[simp] theorem apart_sendObjs : Apart T sendObjs ↔ ¬ T .outbox ∧ ¬ T .calls := by
  simp [Apart, sendObjs]

namespace SendInv

theorem frame (h : SendInv netAddr G m) (hf : Frame T m m') (hT : Apart T sendObjs) :
    SendInv netAddr G m' := by
  obtain ⟨ho, hc⟩ := apart_sendObjs.mp hT
  refine ⟨hf.named.2.1.trans h.address, fun t c hg => ?_, ?_⟩
  · rw [callOf_of_frame hf hc]
    exact h.calling t c hg
  · rw [postedOnly_of_frame hf ho]
    exact h.posted

theorem interrupt {i : Irq} (h : SendInv netAddr G m) (hi : m.interrupt i = some m') :
    SendInv netAddr G m' := by
  obtain rfl | ⟨n, rfl⟩ | ⟨-, rfl⟩ | ⟨c, -, rfl⟩ | ⟨-, rfl⟩ | ⟨buffer, -, -, rfl⟩ | rfl :=
    Machine.interrupt_cases hi
  · exact h
  · exact h.frame (frame_up m (.user n) none) (by simp)
  · exact h.frame (handleInterrupt_frame m) (by simp)
  · exact h.frame (readChar_frame m c) (by simp)
  · exact h.frame (writeDone_frame m) (by simp)
  · exact h.frame (readPacket_frame m buffer) (by simp)
  · -- `SendDone` records nothing about the packet
    have hup := h.frame (frame_up m .messageSent none) (by simp)
    exact ⟨hup.address, hup.calling, hup.posted⟩

theorem handle {is : List Irq} (h : SendInv netAddr G m) (hi : m.handle is = some m') :
    SendInv netAddr G m' := by
  induction is generalizing m with
  | nil =>
    cases hi
    exact h
  | cons i is ih =>
    obtain ⟨m₁, h₁, hi⟩ := Option.bind_eq_some_iff.mp hi
    exact ih (h.interrupt h₁) hi

theorem enter (h : SendInv netAddr G m) (c : Call) (ht : m.currentThread = t) :
    SendInv netAddr (Function.update G t (some c))
      (m.setSched (m.toSched.note (.enter m.currentThread c))) := by
  refine ⟨h.address, fun u c' hg => ?_, h.posted⟩
  change (if m.currentThread = u then some c else callOf u m.trace) = some c'
  rw [ht]
  rcases eq_or_ne u t with rfl | hu
  · rw [Function.update_self] at hg
    rw [if_pos rfl, hg]
  · rw [Function.update_of_ne hu] at hg
    rw [if_neg hu.symm]
    exact h.calling u c' hg

theorem networkSend (h : SendInv netAddr G m) {pktHdr : PacketHeader} {mailHdr : MailHeader}
    {data : List Byte} (lost : Bool) (hg : G t = some (.send pktHdr mailHdr data))
    (ht : m.currentThread = t) (hl : mailHdr.length.toNat ≤ 40) :
    SendInv netAddr G
      ({ m with network := { m.network with sends := m.network.sends + 1 } }.setSched
        (m.toSched.note (.sent m.currentThread (letter netAddr pktHdr mailHdr data).pktHdr
          (letter netAddr pktHdr mailHdr data).payload lost))) := by
  refine ⟨h.address, h.calling, ⟨letter netAddr pktHdr mailHdr data, ?_, ?_⟩, h.posted⟩
  · rw [ht, h.calling t _ hg, letterOf]
  · exact ⟨letter_valid _ _ _ hl, rfl, rfl, rfl⟩

end SendInv
end invariant

/-! ## The routines -/

def sendDiscipline (netAddr : NetworkAddress) :
    Discipline ops Machine Thread Choice (Option Call) where
  Inv := SendInv netAddr
  Allowed _ _ _ _ := True
  Legal _ := True

section routines
variable {netAddr : NetworkAddress} {t : Thread} {g : Option Call}

theorem sending_within {α : Type} {T : Obj → Prop} {prog : Prog α} (hp : prog.Uses (Op.Within T))
    (hT : Apart T sendObjs) :
    platform.Safe (sendDiscipline netAddr) t prog (fun _ g' => g' = g) g := by
  refine Safe.of_uses (hp.mono fun o ho => ⟨trivial, fun G m x e hI _ he => ?_⟩)
  by_cases hl : ∃ now, o = .setLevel now
  · obtain ⟨now, rfl⟩ := hl
    obtain ⟨m₁, is, h₁, hf⟩ := setLevel_frame he
    exact (SendInv.handle hI h₁).frame hf apart_false
  · have ho := ho.resolve_left hl
    exact SendInv.frame hI (exec_frame (fun now hn => hl ⟨now, hn⟩) he)
      fun y hy => mt (ho y) (hT y hy)

theorem sending_setLevel (now : IntStatus) :
    platform.Safe (sendDiscipline netAddr) t (setLevel now) (fun _ g' => g' = g) g :=
  sending_within (T := fun _ => False) (within_setLevel now) apart_false

theorem sending_networkSend {pktHdr : PacketHeader} {mailHdr : MailHeader} {data : List Byte}
    (hl : mailHdr.length.toNat ≤ 40) (hg : g = some (.send pktHdr mailHdr data)) :
    platform.Safe (sendDiscipline netAddr) t
      (Network.send (letter netAddr pktHdr mailHdr data).pktHdr
        (letter netAddr pktHdr mailHdr data).payload) (fun _ g' => g' = g) g := by
  have hget : platform.Safe (sendDiscipline netAddr) t getNetwork (fun _ g' => g' = g) g :=
    sending_within (T := fun _ => False) (within_perform (.inr fun _ => id)) apart_false
  have hassert : ∀ b, platform.Safe (sendDiscipline netAddr) t (assert .maySend b)
      (fun _ g' => g' = g) g := fun b =>
    sending_within (T := (· = .assertion .maySend)) (within_perform (.inr fun _ h => h)) (by simp)
  have hrandom : platform.Safe (sendDiscipline netAddr) t random (fun _ g' => g' = g) g :=
    sending_within (T := fun _ => False) (within_perform (.inr fun _ => id)) apart_false
  refine hget.bind_eq fun net => (hassert _).bind_eq fun _ => hrandom.bind_eq fun n => ?_
  refine safe_once rfl trivial fun G m x r m' hI hG _ ht _ he => ?_
  cases he
  refine ⟨g, ?_, rfl⟩
  rw [← hG, Function.update_eq_self]
  exact SendInv.networkSend hI _ (hG.trans hg) ht hl

theorem sending_send (pktHdr : PacketHeader) (mailHdr : MailHeader) (data : List Byte)
    (hg : g = some (.send pktHdr mailHdr data)) :
    platform.Safe (sendDiscipline netAddr) t (PostOffice.send pktHdr mailHdr data)
      (fun _ g' => g' = g) g := by
  have hoffice : platform.Safe (sendDiscipline netAddr) t getPostOffice
      (fun office g' => office.netAddr = netAddr ∧ g' = g) g := by
    refine safe_look rfl trivial fun G m x r m' hI _ _ he => ?_
    cases he
    exact ⟨rfl, SendInv.address hI, rfl⟩
  have hbox : ∀ b, platform.Safe (sendDiscipline netAddr) t (assert .mailBox b)
      (fun _ g' => g' = g) g := fun b =>
    sending_within (T := (· = .assertion .mailBox)) (within_perform (.inr fun _ h => h)) (by simp)
  have hacquire : platform.Safe (sendDiscipline netAddr) t (Lock.acquire .send)
      (fun _ g' => g' = g) g :=
    sending_within (T := fun x => x = .semaphore (.lock .send) ∨ x = .holder .send)
      (within_acquire (.inl rfl) (.inr rfl)) (by simp)
  have hp : platform.Safe (sendDiscipline netAddr) t (Semaphore.p .messageSent)
      (fun _ g' => g' = g) g :=
    sending_within (T := (· = .semaphore .messageSent)) (within_p rfl) (by simp)
  have hrelease : platform.Safe (sendDiscipline netAddr) t (Lock.release .send)
      (fun _ g' => g' = g) g :=
    sending_within (T := fun x => x = .semaphore (.lock .send) ∨ x = .holder .send)
      (within_release (.inl rfl) (.inr rfl)) (by simp)
  refine hoffice.bind fun office g₁ hoff => ?_
  obtain ⟨rfl, rfl⟩ := hoff
  refine (safe_assert trivial).bind fun _ g₂ hlen => ?_
  obtain ⟨hlen, rfl⟩ := hlen
  refine (hbox _).bind_eq fun _ => hacquire.bind_eq fun _ => ?_
  exact (sending_networkSend (of_decide_eq_true hlen) hg).bind_eq fun _ => hp.bind_eq fun _ =>
    hrelease

theorem sending_call (c : Call) :
    platform.Safe (sendDiscipline netAddr) t c.prog (fun _ _ => True) g := by
  have henter : platform.Safe (sendDiscipline netAddr) t (enter c) (fun _ g' => g' = some c)
      g := by
    refine safe_once rfl trivial fun G m x r m' hI hg _ ht _ he => ?_
    cases he
    exact ⟨some c, SendInv.enter hI c ht, rfl⟩
  have hleave : platform.Safe (sendDiscipline netAddr) t (leave c) (fun _ _ => True)
      (some c) := by
    refine safe_once rfl trivial fun G m x r m' hI hg _ ht _ he => ?_
    cases he
    refine ⟨some c, ?_, trivial⟩
    rw [← hg, Function.update_eq_self]
    have hI : SendInv netAddr G m := hI
    exact ⟨hI.address, hI.calling, hI.posted⟩
  refine safe_prog henter ?_ hleave
  cases c with
  | send pktHdr mailHdr data => exact sending_send pktHdr mailHdr data rfl
  | _ =>
    refine sending_within (Call.body_within _) ?_
    simp [Call.touches]

end routines

theorem SendInv.initial (config : NetConfig) (user : Nat → Int) :
    SendInv config.netname (fun _ => none)
      ((Machine.initial (initialValue user)).named config) where
  address := rfl
  calling _ _ hg := by cases hg
  posted := trivial

theorem postedOnly_of_run {config : NetConfig} {user : Nat → Int} {client : Thread → Client}
    {c : Tasks ops Machine Unit Thread}
    (h : platform.Run (fun _ _ => True) (startNamed config user client) c) :
    PostedOnly config.netname c.state.trace := by
  have hmeets : (sendDiscipline config.netname).Meets (α := Unit) = fun _ _ => True := by
    funext c mv
    cases mv <;> simp [Discipline.Meets, sendDiscipline]
  obtain ⟨G, hI, -⟩ := exists_ghost (D := sendDiscipline config.netname)
    (R := fun _ _ _ => True) (g := none)
    (SendInv.initial config user)
    (fun G x m m' hI he => by
      obtain ⟨m₁, is, h₁, hf⟩ := env_frame he
      exact (SendInv.handle hI h₁).frame hf apart_false)
    (fun t => sending_setLevel .on)
    (fun t o _ _ g _ _ => sending_call o)
    (fun t _ g _ => sending_call .finish)
    (fun _ => trivial) (fun t => follows_any (client t)) (hmeets ▸ h)
  exact SendInv.posted hI

end Nachos.Threads
