import Nachos.Threads.SynchList
import Mathlib.Data.List.Forall2

/-! What a machine receives. The network buffers one packet, and its length says whether there is
one; the semaphore `messageAvailable` counts it until the postal worker wakes up. A message is
thus in one place at a time: in the buffer, in the hands of the worker, or in its mailbox. -/

namespace Nachos.Threads
open Lib Program Platform
open scoped List

/-- The packets that were read from the socket, oldest first. -/
def arrivedPackets : List Event → List (List Byte)
  | [] => []
  | .arrived packet :: h => arrivedPackets h ++ [packet]
  | _ :: h => arrivedPackets h

def pulledHeaders : List Event → List PacketHeader
  | [] => []
  | .pulled hdr :: h => pulledHeaders h ++ [hdr]
  | _ :: h => pulledHeaders h

/-- The `Mail` objects that `MailBox::Get` has copied, with their addresses. -/
def openedMail : List Event → List (Nat × Mail)
  | [] => []
  | .opened _ address mail :: h => openedMail h ++ [(address, mail)]
  | _ :: h => openedMail h

def arrivedMail (b : Nat) (h : List Event) : List Mail :=
  ((arrivedPackets h).map Mail.ofPacket).filter (Mail.inBox b)

def PostOffice.Holding (office : PostOffice) (addresses : List Nat) (mails : List Mail) : Prop :=
  List.Forall₂ (fun address mail => office.mailAt address = some mail) addresses mails

/-- One thread is the postal worker, and the lists of the mailboxes belong to the post office. -/
def postal (numBoxes : Int) : Bool → Call → Option Bool
  | isWorker, .postalDelivery => if isWorker then some isWorker else none
  | isWorker, .append q item => if numBoxes ≤ q ∧ item ≠ 0 then some isWorker else none
  | isWorker, .remove q => if numBoxes ≤ q then some isWorker else none
  | isWorker, _ => some isWorker

inductive PostPos where
  | idle
  /-- It has taken an item off a list. -/
  | took (item : Nat)
  /-- The worker has been told of a packet. -/
  | woken
  | carrying (pktHdr : PacketHeader) (payload : List Byte)
  /-- The worker has made a `Mail` object. -/
  | boxed (address : Nat) (mail : Mail)

namespace PostPos

def Settled : PostPos → Prop
  | .idle | .took _ => True
  | _ => False

def permits : PostPos → Nat
  | .woken => 1
  | _ => 0

def carried : PostPos → List Mail
  | .carrying pktHdr payload => [.ofPayload pktHdr payload]
  | .boxed _ mail => [mail]
  | _ => []

def Right (office : PostOffice) : PostPos → Prop
  | .carrying pktHdr payload =>
    ∃ mail : Mail, mail.Valid ∧ pktHdr = mail.pktHdr ∧ payload = mail.payload
  | .boxed address mail => office.mailAt address = some mail
  | _ => True

end PostPos

def Buffered (net : Network) : Option Mail → Prop
  | none => net.inHdr.length = 0
  | some mail => mail.Valid ∧ net.inHdr = mail.pktHdr ∧
    bcopy net.inbox mail.pktHdr.length.toNat = mail.payload

/-- The way of the mail from the socket to the mailboxes, with what is in the buffer now. -/
structure Transit (p : PostPos) (numBoxes : Int) (m : Machine) (buffer : Option Mail) : Prop where
  buffered : Buffered m.network buffer
  nonneg : 0 ≤ (m.semaphore .messageAvailable).value
  permits : (m.semaphore .messageAvailable).value + p.permits = buffer.toList.length
  right : p.Right m.postOffice
  stream : ∀ b : Nat, b < numBoxes → ∃ mails, m.postOffice.Holding (putItems b m.trace) mails ∧
    arrivedMail b m.trace = mails ++ (p.carried ++ buffer.toList).filter (Mail.inBox b)
  nonempty : ∀ hdr ∈ pulledHeaders m.trace, hdr.length ≠ 0

def MailOnly (h : List Event) : Prop :=
  ∀ packet ∈ arrivedPackets h, ∃ mail : Mail, mail.Valid ∧
    packet = wire mail.pktHdr mail.payload

structure PostInv (worker : Thread) (numBoxes : Int) (G : Thread → PostPos) (m : Machine) :
    Prop where
  boxes : m.postOffice.numBoxes = numBoxes
  others : ∀ t, t ≠ worker → (G t).Settled
  took : ∀ t item, G t = .took item → item ≠ 0 → ∃ q, item ∈ tookItems q m.trace
  opened : ∀ x ∈ openedMail m.trace, (∃ q, x.1 ∈ tookItems q m.trace) ∧
    m.postOffice.mailAt x.1 = some x.2
  transit : MailOnly m.trace → ∃ buffer, Transit (G worker) numBoxes m buffer

/-! ## The invariant -/

section objects
variable {office office' : PostOffice} {mail : Mail} {address : Nat}

theorem PostOffice.mailAt_append (h : office.mailAt address = some mail)
    (hm : office.mail <+: office'.mail) : office'.mailAt address = some mail := by
  cases address with
  | zero => cases h
  | succ address =>
    obtain ⟨rest, hrest⟩ := hm
    have h : office.mail[address]? = some mail := h
    have hlt : address < office.mail.length := (List.getElem?_eq_some_iff.mp h).1
    change office'.mail[address]? = some mail
    rw [← hrest, List.getElem?_append_left hlt]
    exact h

theorem PostOffice.Holding.append {addresses : List Nat} {mails : List Mail}
    (h : office.Holding addresses mails) (hm : office.mail <+: office'.mail) :
    office'.Holding addresses mails :=
  h.imp fun _ _ ha => mailAt_append ha hm

theorem PostPos.Right.append {p : PostPos} (h : p.Right office)
    (hm : office.mail <+: office'.mail) : p.Right office' := by
  cases p with
  | boxed address mail => exact PostOffice.mailAt_append h hm
  | _ => exact h

theorem PostPos.Settled.right {p : PostPos} (h : p.Settled) (office : PostOffice) :
    p.Right office ∧ p.permits = 0 ∧ p.carried = [] := by
  cases p with
  | idle | took => exact ⟨trivial, rfl, rfl⟩
  | woken | carrying | boxed => exact h.elim

end objects

section trace
variable {q item : Nat} {T : Obj → Prop} {m m' : Machine}

theorem mem_tookItems_cons (q item : Nat) (h : List Event) :
    item ∈ tookItems q (.took q item :: h) := by
  simp [tookItems]

theorem mem_tookItems_append {h : List Event} (new : List Event) (hi : item ∈ tookItems q h) :
    item ∈ tookItems q (new ++ h) := by
  induction new with
  | nil => exact hi
  | cons e new ih =>
    rw [List.cons_append]
    cases e with
    | took q' item' =>
      rw [tookItems]
      split
      · exact List.mem_append_left _ ih
      · exact ih
    | _ => exact ih

theorem took_of_frame (hf : Frame T m m') (hi : ∃ q, item ∈ tookItems q m.trace) :
    ∃ q, item ∈ tookItems q m'.trace := by
  obtain ⟨new, hnew, -⟩ := hf.trace
  obtain ⟨q, hq⟩ := hi
  exact ⟨q, hnew ▸ mem_tookItems_append new hq⟩

theorem arrivedPackets_of_frame (hf : Frame T m m') (hi : ¬ T .inbox) :
    arrivedPackets m'.trace = arrivedPackets m.trace := by
  refine hf.trace_eq fun e h he => ?_
  cases e with
  | arrived packet => exact absurd (he _ rfl) hi
  | _ => rfl

theorem pulledHeaders_of_frame (hf : Frame T m m') (hi : ¬ T .inbox) :
    pulledHeaders m'.trace = pulledHeaders m.trace := by
  refine hf.trace_eq fun e h he => ?_
  cases e with
  | pulled hdr => exact absurd (he _ rfl) hi
  | _ => rfl

theorem openedMail_of_frame (hf : Frame T m m') (hp : ¬ T .postOffice) :
    openedMail m'.trace = openedMail m.trace := by
  refine hf.trace_eq fun e h he => ?_
  cases e with
  | opened t address mail => exact absurd (he _ rfl) hp
  | _ => rfl

def postObjs (numBoxes : Int) (x : Obj) : Prop :=
  x = .semaphore .messageAvailable ∨ x = .inbox ∨ x = .postOffice ∨
    ∃ b : Nat, b < numBoxes ∧ x = .list b

@[simp] theorem apart_postObjs {numBoxes : Int} :
    Apart T (postObjs numBoxes) ↔ ¬ T (.semaphore .messageAvailable) ∧ ¬ T .inbox ∧
      ¬ T .postOffice ∧ ∀ b : Nat, b < numBoxes → ¬ T (.list b) := by
  simp only [Apart, postObjs, or_imp, forall_and, forall_eq, forall_exists_index, and_imp]
  exact and_congr_right fun _ => and_congr_right fun _ => and_congr_right fun _ =>
    ⟨fun h b hb => h _ b hb rfl, fun h _ b hb hx => hx ▸ h b hb⟩

end trace

section invariant
variable {worker t : Thread} {numBoxes : Int} {G : Thread → PostPos} {m m' : Machine}
  {T : Obj → Prop} {p p' : PostPos} {buffer : Option Mail}

structure SameMail (numBoxes : Int) (m m' : Machine) : Prop where
  value : (m'.semaphore .messageAvailable).value = (m.semaphore .messageAvailable).value
  inHdr : m'.network.inHdr = m.network.inHdr
  inbox : m'.network.inbox = m.network.inbox
  mail : m.postOffice.mail <+: m'.postOffice.mail
  put : ∀ b : Nat, b < numBoxes → putItems b m'.trace = putItems b m.trace
  arrived : arrivedPackets m'.trace = arrivedPackets m.trace
  pulled : pulledHeaders m'.trace = pulledHeaders m.trace

theorem Buffered.congr {net net' : Network} (h : Buffered net buffer)
    (hhdr : net'.inHdr = net.inHdr) (hin : net'.inbox = net.inbox) : Buffered net' buffer := by
  cases buffer with
  | none => exact (congrArg PacketHeader.length hhdr).trans h
  | some mail => exact ⟨h.1, hhdr.trans h.2.1, hin ▸ h.2.2⟩

theorem Transit.congr (h : Transit p numBoxes m buffer) (hs : SameMail numBoxes m m')
    (hr : p'.Right m'.postOffice) (hp : p'.permits = p.permits) (hc : p'.carried = p.carried) :
    Transit p' numBoxes m' buffer where
  buffered := h.buffered.congr hs.inHdr hs.inbox
  nonneg := hs.value ▸ h.nonneg
  permits := by
    rw [hs.value, hp]
    exact h.permits
  right := hr
  stream b hb := by
    obtain ⟨mails, hmails, harr⟩ := h.stream b hb
    refine ⟨mails, ?_, ?_⟩
    · rw [hs.put b hb]
      exact hmails.append hs.mail
    · rw [arrivedMail, hs.arrived, hc]
      exact harr
  nonempty := by
    rw [hs.pulled]
    exact h.nonempty

theorem MailOnly.congr (h : MailOnly m'.trace)
    (ha : arrivedPackets m'.trace = arrivedPackets m.trace) : MailOnly m.trace := by
  rw [MailOnly, ← ha]
  exact h

theorem SameMail.of_frame (hf : Frame T m m') (hT : Apart T (postObjs numBoxes)) :
    SameMail numBoxes m m' := by
  obtain ⟨hs, hi, hp, hl⟩ := apart_postObjs.mp hT
  exact {
    value := hf.value _ hs
    inHdr := (hf.inbox hi).1
    inbox := (hf.inbox hi).2
    mail := hf.postOffice hp ▸ List.prefix_rfl
    put := fun b hb => (items_of_frame hf (hl b hb)).1
    arrived := arrivedPackets_of_frame hf hi
    pulled := pulledHeaders_of_frame hf hi }

namespace PostInv

theorem step (h : PostInv worker numBoxes G m) (hf : Frame T m m')
    (hmail : m.postOffice.mail <+: m'.postOffice.mail)
    (hothers : t ≠ worker → p.Settled)
    (htook : ∀ item, p = .took item → item ≠ 0 → ∃ q, item ∈ tookItems q m'.trace)
    (hopened : ∀ x ∈ openedMail m'.trace, x ∈ openedMail m.trace ∨
      ((∃ q, x.1 ∈ tookItems q m'.trace) ∧ m'.postOffice.mailAt x.1 = some x.2))
    (htransit : MailOnly m'.trace →
      ∃ buffer, Transit (Function.update G t p worker) numBoxes m' buffer) :
    PostInv worker numBoxes (Function.update G t p) m' := by
  refine ⟨hf.named.2.2.trans h.boxes, fun u hu => ?_, fun u item hg hi => ?_, fun x hx => ?_,
    htransit⟩
  · rcases eq_or_ne u t with rfl | hut
    · rw [Function.update_self]
      exact hothers hu
    · rw [Function.update_of_ne hut]
      exact h.others u hu
  · rcases eq_or_ne u t with rfl | hut
    · rw [Function.update_self] at hg
      exact htook item hg hi
    · rw [Function.update_of_ne hut] at hg
      exact took_of_frame hf (h.took u item hg hi)
  · rcases hopened x hx with hx | hx
    · obtain ⟨hq, hat⟩ := h.opened x hx
      exact ⟨took_of_frame hf hq, PostOffice.mailAt_append hat hmail⟩
    · exact hx

theorem settle (h : PostInv worker numBoxes G m) (hf : Frame T m m')
    (hs : SameMail numBoxes m m') (hg : (G t).Settled) (hp : p.Settled)
    (htook : ∀ item, p = .took item → item ≠ 0 → ∃ q, item ∈ tookItems q m'.trace)
    (hopened : ∀ x ∈ openedMail m'.trace, x ∈ openedMail m.trace ∨
      ((∃ q, x.1 ∈ tookItems q m'.trace) ∧ m'.postOffice.mailAt x.1 = some x.2)) :
    PostInv worker numBoxes (Function.update G t p) m' := by
  refine h.step hf hs.mail (fun _ => hp) htook hopened fun hm => ?_
  obtain ⟨buffer, hI⟩ := h.transit (hm.congr hs.arrived)
  refine ⟨buffer, ?_⟩
  rcases eq_or_ne worker t with rfl | hw
  · obtain ⟨hr, hperm, hcar⟩ := hp.right m'.postOffice
    obtain ⟨-, hperm', hcar'⟩ := hg.right m.postOffice
    rw [Function.update_self]
    exact hI.congr hs hr (hperm.trans hperm'.symm) (hcar.trans hcar'.symm)
  · rw [Function.update_of_ne hw]
    exact hI.congr hs (hI.right.append hs.mail) rfl rfl

theorem frame (h : PostInv worker numBoxes G m) (hf : Frame T m m')
    (hT : Apart T (postObjs numBoxes)) : PostInv worker numBoxes G m' := by
  have hs := SameMail.of_frame hf hT
  have hopened := openedMail_of_frame hf (apart_postObjs.mp hT).2.2.1
  rw [← Function.update_eq_self worker G]
  refine h.step hf hs.mail (fun hw => absurd rfl hw)
    (fun item hg hi => took_of_frame hf (h.took worker item hg hi))
    (fun x hx => .inl (hopened ▸ hx)) fun hm => ?_
  obtain ⟨buffer, hI⟩ := h.transit (hm.congr hs.arrived)
  refine ⟨buffer, ?_⟩
  rw [Function.update_eq_self]
  exact hI.congr hs (hI.right.append hs.mail) rfl rfl

end PostInv

/-! ### The arrival of a packet -/

theorem arrivedPackets_readPacket (m : Machine) (packet : List Byte) :
    arrivedPackets (m.readPacket packet).trace = arrivedPackets m.trace ++ [packet] :=
  arrivedPackets_of_frame
    (frame_up (m.setSched (m.toSched.note (.arrived packet))) .messageAvailable none) (by simp)

theorem pulledHeaders_readPacket (m : Machine) (packet : List Byte) :
    pulledHeaders (m.readPacket packet).trace = pulledHeaders m.trace :=
  (pulledHeaders_of_frame
    (frame_up (m.setSched (m.toSched.note (.arrived packet))) .messageAvailable none)
    (by simp)).trans rfl

theorem value_readPacket (m : Machine) (packet : List Byte) :
    ((m.readPacket packet).semaphore .messageAvailable).value =
      (m.semaphore .messageAvailable).value + 1 :=
  Sched.value_up_self none

theorem splice_zero (buf data : List Byte) :
    splice buf 0 data = data ++ buf.drop data.length := by
  simp [splice]

theorem buffered_readPacket (m : Machine) {mail : Mail} (hv : mail.Valid) :
    Buffered (m.readPacket (wire mail.pktHdr mail.payload)).network (some mail) := by
  refine ⟨hv, PacketHeader.ofBytes_wire _ _, ?_⟩
  have hin : (m.readPacket (wire mail.pktHdr mail.payload)).network.inbox =
      mail.payload ++ m.network.inbox.drop mail.payload.length := by
    change splice _ 0 _ = _
    rw [PacketHeader.ofBytes_wire, bcopy_drop_wire, bcopy_of_length hv.packetLength, splice_zero]
  rw [hin, bcopy_append hv.packetLength]

theorem Transit.readPacket {mail : Mail} (h : Transit p numBoxes m buffer)
    (hempty : m.network.inHdr.length = 0) (hv : mail.Valid) :
    Transit p numBoxes (m.readPacket (wire mail.pktHdr mail.payload)) (some mail) := by
  have hnone : buffer = none := by
    cases buffer with
    | none => rfl
    | some old =>
      have hb := h.buffered
      exact absurd (hb.2.1 ▸ hempty) hb.1.packetLength_ne_zero
  subst hnone
  have hf := readPacket_frame m (wire mail.pktHdr mail.payload)
  refine ⟨buffered_readPacket m hv, ?_, ?_, h.right, fun b hb => ?_, ?_⟩
  · have hnonneg := h.nonneg
    rw [value_readPacket]
    omega
  · have hpermits := h.permits
    simp only [Option.toList_none, List.length_nil] at hpermits
    rw [value_readPacket]
    simp only [Option.toList_some, List.length_singleton]
    push_cast at hpermits ⊢
    omega
  · obtain ⟨mails, hmails, harr⟩ := h.stream b hb
    refine ⟨mails, ?_, ?_⟩
    · rw [(items_of_frame hf (by simp)).1]
      exact hmails
    · rw [arrivedMail] at harr
      rw [arrivedMail, arrivedPackets_readPacket, List.map_append, List.filter_append, harr,
        List.map_singleton, hv.ofPacket_wire]
      simp
  · rw [pulledHeaders_readPacket]
    exact h.nonempty

namespace PostInv

theorem interrupt {i : Irq} (h : PostInv worker numBoxes G m) (hi : m.interrupt i = some m') :
    PostInv worker numBoxes G m' := by
  obtain rfl | ⟨n, rfl⟩ | ⟨-, rfl⟩ | ⟨c, -, rfl⟩ | ⟨-, rfl⟩ | ⟨packet, hempty, -, rfl⟩ | rfl :=
    Machine.interrupt_cases hi
  · exact h
  · exact h.frame (frame_up m (.user n) none) (by simp)
  · exact h.frame (handleInterrupt_frame m) (by simp)
  · exact h.frame (readChar_frame m c) (by simp)
  · exact h.frame (writeDone_frame m) (by simp)
  · have hf := readPacket_frame m packet
    rw [← Function.update_eq_self worker G]
    refine h.step hf List.prefix_rfl (fun hw => absurd rfl hw)
      (fun item hg hi => took_of_frame hf (h.took worker item hg hi))
      (fun x hx => .inl (openedMail_of_frame hf (by simp) ▸ hx)) fun hm => ?_
    rw [Function.update_eq_self]
    rw [MailOnly, arrivedPackets_readPacket] at hm
    obtain ⟨buffer, hI⟩ := h.transit fun w hw => hm w (List.mem_append_left _ hw)
    obtain ⟨mail, hv, rfl⟩ := hm packet (List.mem_append_right _ (List.mem_singleton_self _))
    exact ⟨some mail, hI.readPacket hempty hv⟩
  · exact h.frame (sendDone_frame m) (by simp)

theorem handle {is : List Irq} (h : PostInv worker numBoxes G m) (hi : m.handle is = some m') :
    PostInv worker numBoxes G m' := by
  induction is generalizing m with
  | nil =>
    cases hi
    exact h
  | cons i is ih =>
    obtain ⟨m₁, h₁, hi⟩ := Option.bind_eq_some_iff.mp hi
    exact ih (h.interrupt h₁) hi

end PostInv

/-! ### The worker -/

theorem Transit.down (h : Transit p numBoxes m buffer) (hp : p.Settled)
    (hv : (m.semaphore .messageAvailable).value ≠ 0) :
    Transit .woken numBoxes (m.setSched (m.toSched.down .messageAvailable)) buffer := by
  obtain ⟨-, hpermits, hcarried⟩ := hp.right m.postOffice
  have hvalue : ((m.toSched.down .messageAvailable).semaphore .messageAvailable).value =
      (m.semaphore .messageAvailable).value - 1 := by
    simp [Sched.down]
  have hnonneg := h.nonneg
  have hcount := h.permits
  refine ⟨h.buffered, ?_, ?_, trivial, fun b hb => ?_, h.nonempty⟩
  · change 0 ≤ ((m.toSched.down .messageAvailable).semaphore .messageAvailable).value
    omega
  · change ((m.toSched.down .messageAvailable).semaphore .messageAvailable).value + 1 = _
    rw [hpermits] at hcount
    push_cast at hcount
    omega
  · have hstream := h.stream b hb
    rw [hcarried] at hstream
    exact hstream

theorem Transit.networkReceive (h : Transit .woken numBoxes m buffer) :
    Transit (.carrying m.network.inHdr (bcopy m.network.inbox m.network.inHdr.length.toNat))
      numBoxes ({ m with network := { m.network with
        inHdr := { m.network.inHdr with length := 0 } } }.setSched
          (m.toSched.note (.pulled m.network.inHdr))) none := by
  have hnonneg := h.nonneg
  have hcount := h.permits
  cases buffer with
  | none =>
    simp only [PostPos.permits, Option.toList_none, List.length_nil] at hcount
    omega
  | some mail =>
    obtain ⟨hv, hhdr, hin⟩ := h.buffered
    rw [← hhdr] at hin
    have hcarried : PostPos.carried (.carrying m.network.inHdr
        (bcopy m.network.inbox m.network.inHdr.length.toNat)) = [mail] := by
      rw [PostPos.carried, hin, hhdr, hv.ofPayload_payload]
    refine ⟨rfl, hnonneg, ?_, ⟨mail, hv, hhdr, hin⟩, fun b hb => ?_, fun hdr hm => ?_⟩
    · simp only [PostPos.permits, Option.toList_some, List.length_singleton] at hcount
      simp only [PostPos.permits, Option.toList_none, List.length_nil]
      change (m.semaphore .messageAvailable).value + _ = _
      push_cast at hcount ⊢
      omega
    · rw [hcarried]
      exact h.stream b hb
    · rcases List.mem_append.mp hm with hm | hm
      · exact h.nonempty hdr hm
      · rw [List.mem_singleton.mp hm, hhdr]
        exact hv.packetLength_ne_zero

/-- The worker makes a `Mail` object of what it received; what else is in its buffer does not
matter. -/
theorem Transit.newMail {pktHdr : PacketHeader} {payload rest : List Byte}
    (h : Transit (.carrying pktHdr payload) numBoxes m buffer) :
    Transit (.boxed (m.postOffice.mail.length + 1) (.ofPayload pktHdr (payload ++ rest))) numBoxes
      { m with postOffice := { m.postOffice with
        mail := m.postOffice.mail ++ [.ofPayload pktHdr (payload ++ rest)] } } buffer := by
  obtain ⟨mail, hv, rfl, rfl⟩ := h.right
  have hs : SameMail numBoxes m { m with postOffice := { m.postOffice with
      mail := m.postOffice.mail ++ [.ofPayload mail.pktHdr (mail.payload ++ rest)] } } :=
    ⟨rfl, rfl, rfl, List.prefix_append .., fun _ _ => rfl, rfl, rfl⟩
  refine h.congr hs ?_ rfl ?_
  · change (m.postOffice.mail ++ _)[m.postOffice.mail.length]? = _
    simp
  · simp only [PostPos.carried, hv.ofPayload_append, hv.ofPayload_payload]

theorem Transit.listAppend {address q : Nat} {mail : Mail}
    (h : Transit (.boxed address mail) numBoxes m buffer) (hq : mail.mailHdr.dest.toNat = q) :
    Transit .idle numBoxes
      ({ m with list := Function.update m.list q (m.list q ++ [address]) }.setSched
        (m.toSched.note (.put q address))) buffer := by
  refine ⟨h.buffered, h.nonneg, h.permits, trivial, fun b hb => ?_, h.nonempty⟩
  obtain ⟨mails, hmails, harr⟩ := h.stream b hb
  have harr : arrivedMail b m.trace =
    mails ++ ([mail] ++ buffer.toList).filter (Mail.inBox b) := harr
  rw [List.filter_append] at harr
  have hput : putItems b (.put q address :: m.trace) =
    if q = b then putItems b m.trace ++ [address] else putItems b m.trace := rfl
  change ∃ mails', m.postOffice.Holding (putItems b (.put q address :: m.trace)) mails' ∧
    arrivedMail b m.trace = mails' ++ ([] ++ buffer.toList).filter (Mail.inBox b)
  by_cases hbox : q = b
  · refine ⟨mails ++ [mail], ?_, ?_⟩
    · rw [hput, if_pos hbox]
      exact List.rel_append hmails (.cons h.right .nil)
    · simpa [Mail.inBox, hq, hbox] using harr
  · refine ⟨mails, ?_, ?_⟩
    · rw [hput, if_neg hbox]
      exact hmails
    · simpa [Mail.inBox, hq, hbox] using harr

end invariant

/-! ## The routines -/

def postDiscipline (worker : Thread) (numBoxes : Int) :
    Discipline ops Machine Thread Choice PostPos where
  Inv := PostInv worker numBoxes
  Allowed _ _ _ _ := True
  Legal _ := True

section routines
variable {worker t : Thread} {numBoxes : Int} {g : PostPos}

theorem post_within {α : Type} {T : Obj → Prop} {prog : Prog α} (hp : prog.Uses (Op.Within T))
    (hT : Apart T (postObjs numBoxes)) :
    platform.Safe (postDiscipline worker numBoxes) t prog (fun _ g' => g' = g) g := by
  refine Safe.of_uses (hp.mono fun o ho => ⟨trivial, fun G m x e hI _ he => ?_⟩)
  by_cases hl : ∃ now, o = .setLevel now
  · obtain ⟨now, rfl⟩ := hl
    obtain ⟨m₁, is, h₁, hf⟩ := setLevel_frame he
    exact (PostInv.handle hI h₁).frame hf apart_false
  · have ho := ho.resolve_left hl
    exact PostInv.frame hI (exec_frame (fun now hn => hl ⟨now, hn⟩) he)
      fun y hy => mt (ho y) (hT y hy)

theorem post_setLevel (now : IntStatus) :
    platform.Safe (postDiscipline worker numBoxes) t (setLevel now) (fun _ g' => g' = g) g :=
  post_within (T := fun _ => False) (within_setLevel now) apart_false

theorem post_acquire (q : Nat) :
    platform.Safe (postDiscipline worker numBoxes) t (Lock.acquire (.list q))
      (fun _ g' => g' = g) g :=
  post_within (T := fun x => x = .semaphore (.lock (.list q)) ∨ x = .holder (.list q))
    (within_acquire (.inl rfl) (.inr rfl)) (by simp)

theorem post_release (q : Nat) :
    platform.Safe (postDiscipline worker numBoxes) t (Lock.release (.list q))
      (fun _ g' => g' = g) g :=
  post_within (T := fun x => x = .semaphore (.lock (.list q)) ∨ x = .holder (.list q))
    (within_release (.inl rfl) (.inr rfl)) (by simp)

theorem post_getPostOffice :
    platform.Safe (postDiscipline worker numBoxes) t getPostOffice
      (fun office g' => office.numBoxes = numBoxes ∧ g' = g) g := by
  refine safe_look rfl trivial fun G m x r m' hI _ _ he => ?_
  cases he
  exact ⟨rfl, PostInv.boxes hI, rfl⟩

/-! ### `Receive` -/

theorem post_listRemove (q : Nat) (hg : g.Settled) :
    platform.Safe (postDiscipline worker numBoxes) t (listRemove q)
      (fun item g' => g' = .took item) g := by
  refine safe_once rfl trivial fun G m x r m' hI hG _ ht ha he => ?_
  have hf := exec_frame (o := .listRemove q) (by simp) (exec_of_execute ht ha he)
  have hI : PostInv worker numBoxes G m := hI
  rw [← hG] at hg
  simp only [Machine.execute] at he
  split at he
  · cases he
    refine ⟨.took 0, hI.settle hf ?_ hg trivial (fun item h hi => ?_) fun x hx => .inl hx, rfl⟩
    · exact .of_frame (T := fun _ => False) (.refl _ _) apart_false
    · cases h
      exact absurd rfl hi
  · next rest _ =>
    cases he
    refine ⟨.took r, hI.settle hf ?_ hg trivial (fun item' h _ => ?_) fun x hx => .inl hx, rfl⟩
    · exact ⟨rfl, rfl, rfl, List.prefix_rfl, fun _ _ => rfl, rfl, rfl⟩
    · cases h
      exact ⟨q, mem_tookItems_cons q r m.trace⟩

theorem post_remove (q : Nat) (hg : g.Settled) :
    platform.Safe (postDiscipline worker numBoxes) t (SynchList.remove q)
      (fun item g' => item ≠ 0 ∧ g' = .took item) g := by
  have hloop : platform.Safe (postDiscipline worker numBoxes) t
      (whileLoop (listIsEmpty q) (Condition.wait (.listEmpty q) (.list q)))
      (fun _ g' => g' = g) g :=
    post_within (T := fun x => x = .semaphore (.lock (.list q)) ∨ x = .holder (.list q) ∨
        x = .condition (.listEmpty q))
      (within_whileLoop (within_perform (.inr fun _ => False.elim))
        (within_wait (.inl rfl) (.inr (.inl rfl)) (.inr (.inr rfl)))) (by simp)
  refine (post_acquire q).bind_eq fun _ => hloop.bind_eq fun _ =>
    (post_listRemove q hg).bind_eq fun item => (safe_assert trivial).bind fun _ g' hi => ?_
  obtain ⟨hi, rfl⟩ := hi
  exact (post_release q).bind_eq fun _ => ⟨bne_iff_ne.mp hi, rfl⟩

theorem post_getMail {item : Nat} (hi : item ≠ 0) :
    platform.Safe (postDiscipline worker numBoxes) t (getMail item)
      (fun _ g' => g' = .took item) (.took item) := by
  refine safe_once rfl trivial fun G m x r m' hI hG _ ht ha he => ?_
  have hf := exec_frame (o := .getMail item) (by simp) (exec_of_execute ht ha he)
  have hI : PostInv worker numBoxes G m := hI
  have htook := took_of_frame hf (hI.took t item hG hi)
  simp only [Machine.execute] at he
  split at he
  · cases he
  · next mail hat =>
    cases he
    refine ⟨.took item, hI.settle hf ?_ (hG ▸ trivial) trivial (fun item' h _ => ?_)
      fun x hx => ?_, rfl⟩
    · exact ⟨rfl, rfl, rfl, List.prefix_rfl, fun _ _ => rfl, rfl, rfl⟩
    · cases h
      exact htook
    · rcases List.mem_append.mp hx with hx | hx
      · exact .inl hx
      · rw [List.mem_singleton.mp hx]
        exact .inr ⟨htook, hat⟩

theorem post_receive (box : Int) (hg : g.Settled) :
    platform.Safe (postDiscipline worker numBoxes) t (PostOffice.receive box)
      (fun _ g' => g'.Settled) g := by
  have hget : platform.Safe (postDiscipline worker numBoxes) t (MailBox.get box.toNat)
      (fun _ g' => g'.Settled) g := by
    refine (post_remove box.toNat hg).bind fun item g' hi => ?_
    obtain ⟨hi, rfl⟩ := hi
    exact (post_getMail hi).mono fun _ g' hg' => hg' ▸ trivial
  refine post_getPostOffice.bind fun office g' ho => ?_
  obtain ⟨-, rfl⟩ := ho
  refine (safe_assert trivial).bind fun _ g' ho => ?_
  obtain ⟨-, rfl⟩ := ho
  refine hget.bind fun mail g' hg' => (safe_assert trivial).bind fun _ g'' ho => ?_
  obtain ⟨-, rfl⟩ := ho
  exact hg'

/-! ### `PostalDelivery` -/

theorem post_p (ht : t = worker) (hg : g.Settled) :
    platform.Safe (postDiscipline worker numBoxes) t (Semaphore.p .messageAvailable)
      (fun _ g' => g' = .woken) g := by
  refine safe_p (fun now _ _ => post_setLevel now) (safe_takeValue trivial
    (fun G m hI hG _ _ hv => ?_) fun G m x hI hG _ _ _ hv => ⟨.woken, ?_, rfl⟩)
  · -- the semaphore's value is as before while the worker waits
    have hI : PostInv worker numBoxes G m := hI
    rw [← Function.update_eq_self t G]
    refine hI.settle (frame_park m .messageAvailable) ?_ (hG ▸ hg) (hG ▸ hg)
      (fun item h hi => hI.took t item h hi) fun x hx => .inl hx
    exact ⟨by simp [Sched.park], rfl, rfl, List.prefix_rfl, fun _ _ => rfl, rfl, rfl⟩
  · have hI : PostInv worker numBoxes G m := hI
    refine hI.step (frame_down m .messageAvailable) List.prefix_rfl (fun h => absurd ht h)
      (fun item h => by cases h) (fun x hx => .inl hx) fun hm => ?_
    obtain ⟨buffer, hT⟩ := hI.transit hm
    refine ⟨buffer, ?_⟩
    rw [← ht, Function.update_self]
    rw [← ht, hG] at hT
    exact hT.down hg hv

theorem post_networkReceive (ht : t = worker) :
    platform.Safe (postDiscipline worker numBoxes) t Network.receive
      (fun r g' => g' = .carrying r.1 r.2) .woken := by
  refine safe_once rfl trivial fun G m x r m' hI hG _ hcur ha he => ?_
  have hf := exec_frame (o := .networkReceive) (by simp) (exec_of_execute hcur ha he)
  have hI : PostInv worker numBoxes G m := hI
  cases he
  refine ⟨_, hI.step hf List.prefix_rfl (fun h => absurd ht h) (fun item h => by cases h)
    (fun x hx => .inl hx) fun hm => ?_, rfl⟩
  obtain ⟨buffer, hT⟩ := hI.transit hm
  refine ⟨none, ?_⟩
  rw [← ht, Function.update_self]
  rw [← ht, hG] at hT
  exact hT.networkReceive

theorem post_newMail (ht : t = worker) (pktHdr : PacketHeader) (payload rest : List Byte) :
    platform.Safe (postDiscipline worker numBoxes) t
      (newMail (.ofPayload pktHdr (payload ++ rest)))
      (fun item g' => g' = .boxed item (.ofPayload pktHdr (payload ++ rest)))
      (.carrying pktHdr payload) := by
  refine safe_once rfl trivial fun G m x r m' hI hG _ hcur ha he => ?_
  have hf := exec_frame (o := .newMail _) (by simp) (exec_of_execute hcur ha he)
  have hI : PostInv worker numBoxes G m := hI
  cases he
  refine ⟨_, hI.step hf (List.prefix_append ..) (fun h => absurd ht h) (fun item h => by cases h)
    (fun x hx => .inl hx) fun hm => ?_, rfl⟩
  obtain ⟨buffer, hT⟩ := hI.transit hm
  refine ⟨buffer, ?_⟩
  rw [← ht, Function.update_self]
  rw [← ht, hG] at hT
  exact hT.newMail

theorem post_append {q item : Nat} {g₁ : PostPos}
    (happend : platform.Safe (postDiscipline worker numBoxes) t (listAppend q item)
      (fun _ g' => g' = g₁) g) :
    platform.Safe (postDiscipline worker numBoxes) t (SynchList.append q item)
      (fun _ g' => g' = g₁) g := by
  have hsignal : platform.Safe (postDiscipline worker numBoxes) t
      (Condition.signal (.listEmpty q)) (fun _ g' => g' = g₁) g₁ :=
    post_within (T := (· = .condition (.listEmpty q))) (within_signal rfl) (by simp)
  exact (post_acquire q).bind_eq fun _ => happend.bind_eq fun _ => hsignal.bind_eq fun _ =>
    post_release q

theorem post_listAppend_boxed (ht : t = worker) {address q : Nat} {mail : Mail}
    (hq : mail.mailHdr.dest.toNat = q) :
    platform.Safe (postDiscipline worker numBoxes) t (listAppend q address)
      (fun _ g' => g' = .idle) (.boxed address mail) := by
  refine safe_once rfl trivial fun G m x r m' hI hG _ hcur ha he => ?_
  have hf := exec_frame (o := .listAppend q address) (by simp) (exec_of_execute hcur ha he)
  have hI : PostInv worker numBoxes G m := hI
  cases he
  refine ⟨.idle, hI.step hf List.prefix_rfl (fun _ => trivial) (fun item h => by cases h)
    (fun x hx => .inl hx) fun hm => ?_, rfl⟩
  obtain ⟨buffer, hT⟩ := hI.transit hm
  refine ⟨buffer, ?_⟩
  rw [← ht, Function.update_self]
  rw [← ht, hG] at hT
  exact hT.listAppend hq

theorem post_deliver (ht : t = worker) (buffer : List Byte) (hg : g.Settled) :
    platform.Safe (postDiscipline worker numBoxes) t (PostOffice.deliver buffer)
      (fun _ g' => g'.Settled) g := by
  refine (post_p ht hg).bind_eq fun _ => (post_networkReceive ht).bind fun packet g' hg' => ?_
  obtain ⟨pktHdr, payload⟩ := packet
  subst hg'
  refine post_getPostOffice.bind fun office g' ho => ?_
  obtain ⟨-, rfl⟩ := ho
  refine (safe_assert trivial).bind fun _ g' ho => ?_
  obtain ⟨-, rfl⟩ := ho
  refine (safe_assert trivial).bind fun _ g' ho => ?_
  obtain ⟨-, rfl⟩ := ho
  -- the rest of the buffer is left over from earlier packets
  have hsplice : splice buffer 0 payload = payload ++ buffer.drop payload.length :=
    splice_zero _ _
  have hput : platform.Safe (postDiscipline worker numBoxes) t
      (MailBox.put (MailHeader.ofBytes (splice buffer 0 payload)).dest.toNat
        (.ofPayload pktHdr (splice buffer 0 payload))) (fun _ g' => g' = .idle)
      (.carrying pktHdr payload) := by
    refine (safe_assert trivial).bind fun _ g' ho => ?_
    obtain ⟨-, rfl⟩ := ho
    rw [hsplice]
    exact (post_newMail ht pktHdr payload _).bind_eq fun item =>
      post_append (post_listAppend_boxed ht rfl)
  exact hput.bind_eq fun _ => trivial

theorem post_postalDelivery (ht : t = worker) (hg : g.Settled) :
    platform.Safe (postDiscipline worker numBoxes) t PostOffice.postalDelivery
      (fun _ g' => g'.Settled) g := by
  have hgo : ∀ n buffer g, g.Settled → platform.Safe (postDiscipline worker numBoxes) t
      (PostOffice.postalDelivery.go n buffer) (fun _ g' => g'.Settled) g := fun n => by
    induction n with
    | zero =>
      exact fun _ _ _ => safe_once rfl trivial fun G m x r m' _ _ _ _ _ he => by cases he
    | succ n ih =>
      exact fun buffer g hg => (post_deliver ht buffer hg).bind fun buffer g' hg' =>
        ih buffer g' hg'
  have hrounds : platform.Safe (postDiscipline worker numBoxes) t (perform (S := ops) .rounds)
      (fun _ g' => g' = g) g :=
    post_within (T := fun _ => False) (within_perform (.inr fun _ => id)) apart_false
  exact hrounds.bind_eq fun n => hgo n _ g hg

/-! ### All calls -/

theorem post_listAppend_other {q item : Nat} (hq : numBoxes ≤ q) :
    platform.Safe (postDiscipline worker numBoxes) t (listAppend q item) (fun _ g' => g' = g) g := by
  refine post_within (T := (· = .list q)) (within_perform (.inr fun _ h => h)) ?_
  simp only [apart_postObjs, reduceCtorEq, not_false_eq_true, true_and]
  intro b hb h
  cases h
  omega

theorem post_call {c : Call} {isWorker isWorker' : Bool}
    (hc : postal numBoxes isWorker c = some isWorker') (hw : isWorker = true → t = worker)
    (hg : g.Settled) :
    platform.Safe (postDiscipline worker numBoxes) t c.prog (fun _ g' => g'.Settled) g := by
  have hcalls : ∀ g, platform.Safe (postDiscipline worker numBoxes) t (enter c)
      (fun _ g' => g' = g) g ∧
      platform.Safe (postDiscipline worker numBoxes) t (leave c) (fun _ g' => g' = g) g := fun g =>
    ⟨post_within (T := (· = .calls)) (within_perform (.inr fun _ h => h)) (by simp),
      post_within (T := (· = .calls)) (within_perform (.inr fun _ h => h)) (by simp)⟩
  have hbody : platform.Safe (postDiscipline worker numBoxes) t c.body
      (fun _ g' => g'.Settled) g := by
    cases c with
    | postalDelivery =>
      obtain ⟨hworker, -⟩ := Option.ite_none_right_eq_some.mp hc
      exact post_postalDelivery (hw hworker) hg
    | append q item =>
      obtain ⟨hq, -⟩ := Option.ite_none_right_eq_some.mp hc
      exact (post_append (post_listAppend_other hq.1)).mono fun _ g' hg' => hg' ▸ hg
    | remove q => exact (post_remove q hg).mono fun _ g' hg' => hg'.2 ▸ trivial
    | receive box => exact post_receive box hg
    | _ =>
      refine (post_within (Call.body_within _) ?_).mono fun _ g' hg' => hg' ▸ hg
      simp [Call.touches]
  refine (hcalls g).1.bind_eq fun _ => hbody.bind fun r g' hg' => ?_
  exact (hcalls g').2.bind fun _ g'' h => h ▸ hg'

end routines

/-! ## Runs -/

theorem PostInv.initial (worker : Thread) (config : NetConfig) (user : Nat → Int) :
    PostInv worker config.numBoxes (fun _ => .idle)
      ((Machine.initial (initialValue user)).named config) where
  boxes := rfl
  others _ _ := trivial
  took _ _ h := by cases h
  opened _ h := by cases h
  transit _ := ⟨none, rfl, le_refl _, rfl, trivial, fun _ _ => ⟨[], .nil, rfl⟩, by
    intro hdr h
    cases h⟩

theorem nonNull_of_postal {numBoxes : Int} {isWorker isWorker' : Bool} {c : Call}
    (h : postal numBoxes isWorker c = some isWorker') : nonNull () c = some () := by
  cases c with
  | append q item =>
    obtain ⟨hq, -⟩ := Option.ite_none_right_eq_some.mp h
    cases item with
    | zero => exact absurd rfl hq.2
    | succ item => rfl
  | _ => rfl

theorem postal_worker {numBoxes : Int} {isWorker isWorker' : Bool} {c : Call}
    (h : postal numBoxes isWorker c = some isWorker') : isWorker' = isWorker := by
  cases c with
  | postalDelivery | append | remove =>
    obtain ⟨-, h⟩ := Option.ite_none_right_eq_some.mp h
    exact (Option.some.inj h).symm
  | _ => exact (Option.some.inj h).symm

section runs
variable {config : NetConfig} {user : Nat → Int} {client : Thread → Client} {worker : Thread}
  {c : Tasks ops Machine Unit Thread}

theorem postInv_of_run
    (hclient : ∀ t, Follows (postal config.numBoxes) (decide (t = worker)) (client t))
    (h : platform.Run (fun _ _ => True) (startNamed config user client) c) :
    ∃ G, PostInv worker config.numBoxes G c.state := by
  have hmeets : (postDiscipline worker config.numBoxes).Meets (α := Unit) = fun _ _ => True := by
    funext c mv
    cases mv <;> simp [Discipline.Meets, postDiscipline]
  obtain ⟨G, hI, -⟩ := exists_ghost (D := postDiscipline worker config.numBoxes)
    (R := fun t isWorker g => (isWorker = true → t = worker) ∧ g.Settled) (g := .idle)
    (PostInv.initial worker config user)
    (fun G x m m' hI he => by
      obtain ⟨m₁, is, h₁, hf⟩ := env_frame he
      exact (PostInv.handle hI h₁).frame hf apart_false)
    (fun t => post_setLevel .on)
    (fun t o b b' g ho hg => by
      refine (post_call ho hg.1 hg.2).mono fun _ g' hg' => ⟨fun hb => hg.1 ?_, hg'⟩
      rw [← hb]
      exact (postal_worker ho).symm)
    (fun t b g hg => (post_call (c := .finish) rfl hg.1 hg.2).mono fun _ _ _ => trivial)
    (fun t => ⟨of_decide_eq_true, trivial⟩) hclient (hmeets ▸ h)
  exact ⟨G, hI⟩

/-- If nothing but mail arrives, what is taken off a mailbox is what has arrived for it, in the
same order. -/
theorem taken_prefix_arrived
    (hclient : ∀ t, Follows (postal config.numBoxes) (decide (t = worker)) (client t))
    (h : platform.Run (fun _ _ => True) (startNamed config user client) c)
    (hmail : MailOnly c.state.trace) {b : Nat} (hb : b < config.numBoxes) :
    ∃ mails, c.state.postOffice.Holding (tookItems b c.state.trace) mails ∧
      mails <+: arrivedMail b c.state.trace := by
  obtain ⟨G, hI⟩ := postInv_of_run hclient h
  obtain ⟨L, hL, -⟩ := listInv_of_run
    (fun t => (hclient t).mono (fun _ => ()) fun _ _ _ => nonNull_of_postal) h
  obtain ⟨buffer, hT⟩ := hI.transit hmail
  obtain ⟨mails, hmails, harr⟩ := hT.stream b hb
  rw [hL.fifo b] at hmails
  refine ⟨mails.take (tookItems b c.state.trace).length, ?_, ?_⟩
  · have htake := List.forall₂_take (tookItems b c.state.trace).length hmails
    rwa [List.take_left] at htake
  · rw [harr]
    exact (List.take_prefix ..).trans (List.prefix_append ..)

end runs
end Nachos.Threads
