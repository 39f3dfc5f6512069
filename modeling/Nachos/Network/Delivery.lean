import Nachos.Network.Sending
import Nachos.Network.PostalWorker

/-! Machines that send each other mail. Each pair of machines has a channel of packets in transit,
which are delivered in order and unchanged, and may be lost. -/

namespace Nachos.Threads
open Lib Program Platform
open scoped List

/-- What runs on a machine: its options, its threads, and which of them is the postal worker. -/
structure Host where
  rely : Rat
  numBoxes : Int
  user : Nat → Int
  client : Thread → Client
  worker : Thread

def Host.config (host : Host) (address : NetworkAddress) : NetConfig :=
  ⟨address, host.rely, host.numBoxes⟩

/-- Only the worker calls `PostalDelivery`, and only the post office uses the lists of the
mailboxes. -/
def Host.Postal (host : Host) : Prop :=
  ∀ t, Follows (postal host.numBoxes) (decide (t = host.worker)) (host.client t)

structure Internet where
  machine : NetworkAddress → Tasks ops Machine Unit Thread
  channel : NetworkAddress → NetworkAddress → List (List Byte)

def Internet.trace (net : Internet) (a : NetworkAddress) : List Event := (net.machine a).state.trace

def Internet.start (host : NetworkAddress → Host) : Internet where
  machine a := startNamed ((host a).config a) (host a).user (host a).client
  channel _ _ := []

/-- The packets come from the heads of the channels to one machine. -/
inductive Reads : (NetworkAddress → List (List Byte)) → List (List Byte) →
    (NetworkAddress → List (List Byte)) → Prop
  | nil (channel : NetworkAddress → List (List Byte)) : Reads channel [] channel
  | cons {channel channel' : NetworkAddress → List (List Byte)} (a : NetworkAddress)
      {packet : List Byte} {rest packets : List (List Byte)} (ha : channel a = packet :: rest)
      (h : Reads (Function.update channel a rest) packets channel') :
      Reads channel (packet :: packets) channel'

namespace Internet

/-- The channels after a move of machine `r`, when `inbound` is left of those to it and `sent`
is what it sent. -/
def carry (net : Internet) (r : NetworkAddress) (inbound : NetworkAddress → List (List Byte))
    (sent : NetworkAddress → List (List Byte)) (a d : NetworkAddress) : List (List Byte) :=
  (if d = r then inbound a else net.channel a d) ++ if a = r then sent d else []

inductive Step : Internet → Internet → Prop
  | move {net : Internet} (r : NetworkAddress) {mv : Move Thread Choice}
      {c : Tasks ops Machine Unit Thread} (packets : List (List Byte))
      (inbound sent : NetworkAddress → List (List Byte))
      (hmv : platform.step mv (net.machine r) = some c)
      (harr : arrivedPackets c.state.trace = arrivedPackets (net.trace r) ++ packets)
      (hin : Reads (fun a => net.channel a r) packets inbound)
      (hsent : ∀ d, sentPackets d c.state.trace = sentPackets d (net.trace r) ++ sent d) :
      Step net ⟨Function.update net.machine r c, net.carry r inbound sent⟩
  | lose {net : Internet} (a d : NetworkAddress) {before after : List (List Byte)}
      {packet : List Byte} (h : net.channel a d = before ++ packet :: after) :
      Step net ⟨net.machine, Function.update net.channel a
        (Function.update (net.channel a) d (before ++ after))⟩

inductive Reaches (net : Internet) : Internet → Prop
  | refl : Reaches net net
  | tail {net' net'' : Internet} (h : Reaches net net') (hs : Step net' net'') : Reaches net net''

end Internet

/-! ## Order on the channels -/

def sentBy (a : NetworkAddress) (packet : List Byte) : Bool :=
  (PacketHeader.ofBytes packet).sender == a

/-- What machine `a` sent to `d` has arrived, is in transit or is lost. -/
structure Internet.InOrder (host : NetworkAddress → Host) (net : Internet) : Prop where
  run : ∀ a, platform.Run (fun _ _ => True)
    (startNamed ((host a).config a) (host a).user (host a).client) (net.machine a)
  transit : ∀ a d, (arrivedPackets (net.trace d)).filter (sentBy a) ++ net.channel a d <+
    sentPackets d (net.trace a)

section order
variable {host : NetworkAddress → Host} {net net' : Internet} {a d r : NetworkAddress}

theorem Reads.filter_append {channel channel' : NetworkAddress → List (List Byte)}
    {packets : List (List Byte)} (h : Reads channel packets channel')
    (hs : ∀ a, ∀ packet ∈ channel a, sentBy a packet = true) (a : NetworkAddress) :
    packets.filter (sentBy a) ++ channel' a = channel a := by
  induction h with
  | nil => rfl
  | @cons channel channel' b packet rest packets hb _ ih =>
    have hrest : ∀ c, ∀ w ∈ Function.update channel b rest c, sentBy c w = true := by
      intro c w hw
      rcases eq_or_ne c b with rfl | hc
      · rw [Function.update_self] at hw
        exact hs c w (hb ▸ List.mem_cons_of_mem _ hw)
      · rw [Function.update_of_ne hc] at hw
        exact hs c w hw
    have hpacket : sentBy b packet = true := hs b packet (hb ▸ List.mem_cons_self ..)
    have ih := ih hrest
    rcases eq_or_ne a b with rfl | ha
    · rw [Function.update_self] at ih
      rw [List.filter_cons_of_pos hpacket, List.cons_append, ih, hb]
    · rw [Function.update_of_ne ha] at ih
      have hother : ¬ sentBy a packet = true := fun h => ha (by
        rw [sentBy, beq_iff_eq] at h hpacket
        exact h.symm.trans hpacket)
      rw [List.filter_cons_of_neg hother, ih]

namespace Internet.InOrder

theorem sentBy_of_mem (h : InOrder host net) {packet : List Byte}
    (hm : packet ∈ sentPackets d (net.trace a)) : sentBy a packet = true := by
  obtain ⟨mail, -, hsender, -, rfl⟩ := mem_sentPackets (postedOnly_of_run (h.run a)) hm
  rw [sentBy, PacketHeader.ofBytes_wire, beq_iff_eq]
  exact hsender

theorem move (h : InOrder host net) {mv : Move Thread Choice} {c : Tasks ops Machine Unit Thread}
    {packets : List (List Byte)} {inbound sent : NetworkAddress → List (List Byte)}
    (hmv : platform.step mv (net.machine r) = some c)
    (harr : arrivedPackets c.state.trace = arrivedPackets (net.trace r) ++ packets)
    (hin : Reads (fun a => net.channel a r) packets inbound)
    (hsent : ∀ d, sentPackets d c.state.trace = sentPackets d (net.trace r) ++ sent d) :
    InOrder host ⟨Function.update net.machine r c, net.carry r inbound sent⟩ := by
  have hinbound : ∀ a, packets.filter (sentBy a) ++ inbound a = net.channel a r :=
    hin.filter_append fun a packet hp =>
      h.sentBy_of_mem ((h.transit a r).subset (List.mem_append_right _ hp))
  refine ⟨fun a => ?_, fun a d => ?_⟩
  · rcases eq_or_ne a r with rfl | ha
    · simp only [Function.update_self]
      exact (h.run a).tail trivial hmv
    · simp only [Function.update_of_ne ha]
      exact h.run a
  · -- the arrivals come from the channel, and what is sent goes to its end
    have hleft : (arrivedPackets (Function.update net.machine r c d).state.trace).filter
        (sentBy a) ++ net.carry r inbound sent a d =
        ((arrivedPackets (net.trace d)).filter (sentBy a) ++ net.channel a d) ++
          if a = r then sent d else [] := by
      rw [carry, ← List.append_assoc]
      congr 1
      rcases eq_or_ne d r with rfl | hd
      · rw [Function.update_self, harr, if_pos rfl, List.filter_append, List.append_assoc,
          hinbound a]
      · rw [Function.update_of_ne hd, if_neg hd]
        rfl
    have hright : sentPackets d (Function.update net.machine r c a).state.trace =
        sentPackets d (net.trace a) ++ if a = r then sent d else [] := by
      rcases eq_or_ne a r with rfl | ha
      · rw [Function.update_self, if_pos rfl, hsent]
      · rw [Function.update_of_ne ha, if_neg ha, List.append_nil]
        rfl
    change List.Sublist (_ ++ net.carry r inbound sent a d) _
    rw [trace, trace]
    simp only
    rw [hleft, hright]
    exact (h.transit a d).append (List.Sublist.refl _)

theorem lose (h : InOrder host net) {before after : List (List Byte)} {packet : List Byte}
    (hc : net.channel a d = before ++ packet :: after) :
    InOrder host ⟨net.machine, Function.update net.channel a
      (Function.update (net.channel a) d (before ++ after))⟩ := by
  refine ⟨h.run, fun a' d' => ?_⟩
  refine List.Sublist.trans (List.Sublist.append (List.Sublist.refl _) ?_) (h.transit a' d')
  change Function.update net.channel a _ a' d' <+ net.channel a' d'
  rcases eq_or_ne a' a with rfl | ha
  · rw [Function.update_self]
    rcases eq_or_ne d' d with rfl | hd
    · rw [Function.update_self, hc]
      exact List.Sublist.append (List.Sublist.refl _) (List.sublist_cons_self ..)
    · rw [Function.update_of_ne hd]
  · rw [Function.update_of_ne ha]

end Internet.InOrder

theorem Internet.inOrder_of_reaches (h : Internet.Reaches (.start host) net) :
    InOrder host net := by
  induction h with
  | refl => exact ⟨fun a => .refl _, fun a d => List.Sublist.refl _⟩
  | tail _ hs ih =>
    cases hs with
    | move r packets inbound sent hmv harr hin hsent => exact ih.move hmv harr hin hsent
    | lose a d hc => exact ih.lose hc

theorem Internet.InOrder.mailOnly (h : InOrder host net) (r : NetworkAddress) :
    MailOnly (net.trace r) := fun packet hm => by
  have hfilter : packet ∈ (arrivedPackets (net.trace r)).filter
      (sentBy (PacketHeader.ofBytes packet).sender) :=
    List.mem_filter.mpr ⟨hm, beq_self_eq_true _⟩
  have hsent := (h.transit _ r).subset (List.mem_append_left _ hfilter)
  obtain ⟨mail, hv, -, -, rfl⟩ := mem_sentPackets (postedOnly_of_run (h.run _)) hsent
  exact ⟨mail, hv, rfl⟩

/-- The mail that has arrived from machine `a` is mail that `a` passed for this machine. -/
theorem Internet.InOrder.arrived_sublist (h : InOrder host net) (a r : NetworkAddress) :
    ((arrivedPackets (net.trace r)).map Mail.ofPacket).filter (·.pktHdr.sender = a) <+
      (passedMail a (net.trace a)).filter (·.pktHdr.dest = r) := by
  have hsplit : ((arrivedPackets (net.trace r)).map Mail.ofPacket).filter
      (·.pktHdr.sender = a) = ((arrivedPackets (net.trace r)).filter (sentBy a)).map
        Mail.ofPacket := by
    rw [List.filter_map]
    congr 1
  rw [hsplit]
  have harrived : (arrivedPackets (net.trace r)).filter (sentBy a) <+
      sentPackets r (net.trace a) :=
    (List.sublist_append_left ..).trans (h.transit a r)
  exact (harrived.map _).trans (sentPackets_sublist (postedOnly_of_run (h.run a)))

/-- What is taken off a mailbox and comes from machine `a` is, in the same order, mail that the
threads of `a` passed to `Network::Send` for that mailbox. `Receive` returns what it takes off,
and the postal worker never gets an empty packet. -/
theorem mail_delivered (hhost : ∀ a, (host a).Postal) (h : Internet.Reaches (.start host) net)
    (a r : NetworkAddress) {b : Nat} (hb : b < (host r).numBoxes) :
    (∃ mails, (net.machine r).state.postOffice.Holding (tookItems b (net.trace r)) mails ∧
      mails.filter (·.pktHdr.sender = a) <+
        (passedMail a (net.trace a)).filter (fun mail => mail.pktHdr.dest = r ∧ mail.inBox b) ∧
      ∀ mail ∈ mails, mail.mailHdr.length.toNat = mail.data.length ∧ mail.data.length ≤ 40) ∧
    (∀ x ∈ openedMail (net.trace r), (∃ q, x.1 ∈ tookItems q (net.trace r)) ∧
      (net.machine r).state.postOffice.mailAt x.1 = some x.2) ∧
    ∀ hdr ∈ pulledHeaders (net.trace r), hdr.length ≠ 0 := by
  have hI := Internet.inOrder_of_reaches h
  have hmail := hI.mailOnly r
  have hclient : ∀ t, Follows (postal ((host r).config r).numBoxes)
    (decide (t = (host r).worker)) ((host r).client t) := hhost r
  obtain ⟨G, hP⟩ := postInv_of_run hclient (hI.run r)
  obtain ⟨buffer, hT⟩ := hP.transit hmail
  obtain ⟨mails, hmails, hfirst⟩ := taken_prefix_arrived hclient (hI.run r) hmail hb
  refine ⟨⟨mails, hmails, ?_, fun mail hm => ?_⟩, hP.opened, hT.nonempty⟩
  · calc mails.filter (·.pktHdr.sender = a)
        <+ (arrivedMail b (net.trace r)).filter (·.pktHdr.sender = a) :=
          hfirst.sublist.filter _
      _ = (((arrivedPackets (net.trace r)).map Mail.ofPacket).filter
            (·.pktHdr.sender = a)).filter (Mail.inBox b) := List.filter_comm _ _ _
      _ <+ ((passedMail a (net.trace a)).filter (·.pktHdr.dest = r)).filter (Mail.inBox b) :=
          (hI.arrived_sublist a r).filter _
      _ = _ := by
          rw [List.filter_filter]
          congr 1
          funext mail
          simp [Bool.and_comm]
  · obtain ⟨packet, hpacket, rfl⟩ :=
      List.mem_map.mp (List.mem_of_mem_filter (hfirst.subset hm))
    obtain ⟨mail, hv, rfl⟩ := hmail packet hpacket
    rw [hv.ofPacket_wire]
    exact ⟨hv.length, hv.fits⟩

end order

/-! ## A message delivered -/

section runs
variable {net₀ net : Internet} {r : NetworkAddress} {c c' : Tasks ops Machine Unit Thread}

def Event.offline : Event → Bool
  | .sent .. | .arrived _ => false
  | _ => true

theorem trace_of_step {mv : Move Thread Choice} (h : platform.step mv c = some c') :
    ∃ new, c'.state.trace = new ++ c.state.trace := by
  obtain ⟨t, x, o, k, res, m, -, -, he, rfl⟩ | ⟨t, x, o, k, m, -, -, he, rfl⟩ |
    ⟨x, m, -, he, rfl⟩ := step_cases h
  · obtain ⟨new, hnew, -⟩ := (exec_within (o := o) (.inr fun _ hx => hx) he).trace
    exact ⟨new, hnew⟩
  · obtain ⟨new, hnew, -⟩ := (exec_within (o := o) (.inr fun _ hx => hx) he).trace
    exact ⟨new, hnew⟩
  · obtain ⟨m₁, is, h₁, hf⟩ := env_frame he
    obtain ⟨new, hnew, -⟩ := ((handle_frame h₁).trans (hf.mono fun _ => False.elim)).trace
    exact ⟨new, hnew⟩

theorem packets_offline {new : List Event} (h : List Event) (hnew : new.all Event.offline = true) :
    arrivedPackets (new ++ h) = arrivedPackets h ∧
      ∀ d, sentPackets d (new ++ h) = sentPackets d h := by
  induction new with
  | nil => exact ⟨rfl, fun _ => rfl⟩
  | cons e new ih =>
    rw [List.all_cons, Bool.and_eq_true] at hnew
    obtain ⟨he, hnew⟩ := hnew
    cases e with
    | sent | arrived => cases he
    | _ => exact ih hnew

theorem Internet.Reaches.moves (h : Internet.Reaches net₀ net)
    (hrun : platform.Run (fun _ _ => True) (net.machine r) c) :
    ∃ new, c.state.trace = new ++ net.trace r ∧ (new.all Event.offline = true →
      Internet.Reaches net₀ ⟨Function.update net.machine r c, net.channel⟩) := by
  induction hrun with
  | refl =>
    refine ⟨[], rfl, fun _ => ?_⟩
    rwa [Function.update_eq_self]
  | @tail c₁ c₂ mv _ _ hs ih =>
    obtain ⟨new, hnew, hreach⟩ := ih
    obtain ⟨new', hnew'⟩ := trace_of_step hs
    refine ⟨new' ++ new, by rw [hnew', hnew, List.append_assoc], fun hall => ?_⟩
    rw [List.all_append, Bool.and_eq_true] at hall
    have hoff := packets_offline c₁.state.trace hall.1
    rw [← hnew'] at hoff
    have hcarry : Internet.carry ⟨Function.update net.machine r c₁, net.channel⟩ r
        (fun a => net.channel a r) (fun _ => []) = net.channel := by
      funext a d
      by_cases hd : d = r
      · simp [carry, hd]
      · simp [carry, hd]
    have hstep : Step ⟨Function.update net.machine r c₁, net.channel⟩
        ⟨Function.update (Function.update net.machine r c₁) r c₂,
          Internet.carry ⟨Function.update net.machine r c₁, net.channel⟩ r
            (fun a => net.channel a r) (fun _ => [])⟩ :=
      .move r [] _ _ (by simpa only [Function.update_self] using hs)
        (by simpa [Internet.trace] using hoff.1) (.nil _) (by simpa [Internet.trace] using hoff.2)
    rw [hcarry, Function.update_idem] at hstep
    exact (hreach hall.2).tail hstep

def after (mvs : List (Move Thread Choice)) (c : Tasks ops Machine Unit Thread) :
    Tasks ops Machine Unit Thread :=
  (platform.replay mvs c).getD c

theorem Internet.Reaches.offline (h : Internet.Reaches net₀ net) (mvs : List (Move Thread Choice))
    (hc : net.machine r = c) (hsome : (platform.replay mvs c).isSome = true)
    (hoff : ((after mvs c).state.trace.take
      ((after mvs c).state.trace.length - c.state.trace.length)).all Event.offline = true) :
    Internet.Reaches net₀ ⟨Function.update net.machine r (after mvs c), net.channel⟩ := by
  subst hc
  have hrun : platform.Run (fun _ _ => True) (net.machine r) (after mvs (net.machine r)) := by
    obtain ⟨c', hc'⟩ := Option.isSome_iff_exists.mp hsome
    rw [after, hc']
    exact run_of_replay mvs hc'
  obtain ⟨new, hnew, hreach⟩ := h.moves hrun
  refine hreach ?_
  rw [hnew] at hoff
  simpa [Internet.trace] using hoff

theorem step_after {mv : Move Thread Choice} (h : (platform.step mv c).isSome = true) :
    platform.step mv c = some (after [mv] c) := by
  obtain ⟨c', hc'⟩ := Option.isSome_iff_exists.mp h
  simp [after, Platform.replay, Platform.replayIf, hc']

def selfMail : Thread → Client
  | 0 => do
    perform (S := calls) (.fork 1)
    perform (S := calls) (.send ⟨0, 0, 0⟩ ⟨0, 0, 1⟩ [7])
    perform (S := calls) (.send ⟨0, 0, 0⟩ ⟨0, 0, 1⟩ [8])
    let _ ← perform (S := calls) (.receive 0)
    let _ ← perform (S := calls) (.receive 0)
  | 1 => perform (S := calls) .postalDelivery
  | _ => pure ()

def selfHost : Host := ⟨1, 1, fun _ => 0, selfMail, 1⟩

theorem selfHost_postal : selfHost.Postal := fun t => by
  rcases t with _ | _ | t
  · exact ⟨false, rfl, fun _ => ⟨false, rfl, fun _ => ⟨false, rfl, fun _ =>
      ⟨false, rfl, fun _ => ⟨false, rfl, fun _ => trivial⟩⟩⟩⟩⟩
  · exact ⟨true, rfl, fun _ => trivial⟩
  · trivial

def selfLetter (data : Byte) : Mail := letter 0 ⟨0, 0, 0⟩ ⟨0, 0, 1⟩ [data]

def selfPacket (data : Byte) : List Byte :=
  wire (selfLetter data).pktHdr (selfLetter data).payload

def acts (t : Thread) (n : Nat) : List (Move Thread Choice) := .replicate n (.act t ⟨[], false, 3⟩)

def selfReady : Tasks ops Machine Unit Thread :=
  after (acts 0 17) (startNamed (selfHost.config 0) selfHost.user selfHost.client)

def selfSent : Tasks ops Machine Unit Thread := after (acts 0 1) selfReady

/-- The worker is about to turn interrupts on. -/
def selfWaiting : Tasks ops Machine Unit Thread :=
  after (acts 0 2 ++ [.env ⟨[], false, 3⟩]) selfSent

def selfArrival (data : Byte) : Choice :=
  ⟨[.networkSendDone, .networkReadPoll (some (selfPacket data))], false, 3⟩

def selfArrived : Tasks ops Machine Unit Thread := after [.act 1 (selfArrival 7)] selfWaiting

/-- The first message is in the mailbox, and the machine is about to send the second one. -/
def selfReadyAgain : Tasks ops Machine Unit Thread :=
  after (acts 1 28 ++ .env ⟨[], false, 3⟩ :: acts 0 21) selfArrived

def selfSentAgain : Tasks ops Machine Unit Thread := after (acts 0 1) selfReadyAgain

def selfAsleep : Tasks ops Machine Unit Thread := after (acts 0 2) selfSentAgain

def selfArrivedAgain : Tasks ops Machine Unit Thread := after [.env (selfArrival 8)] selfAsleep

def selfTaken : Tasks ops Machine Unit Thread :=
  after (.env ⟨[], false, 3⟩ :: acts 0 48 ++ .env ⟨[], false, 3⟩ :: acts 1 25 ++
    .env ⟨[], false, 3⟩ :: acts 0 8) selfArrivedAgain

/-- The other machines have not done anything. -/
def selfNet (c : Tasks ops Machine Unit Thread) (packets : List (List Byte)) : Internet where
  machine := Function.update (Internet.start fun _ => selfHost).machine 0 c
  channel a d := if a = 0 ∧ d = 0 then packets else []

theorem selfNet_start : selfNet (startNamed (selfHost.config 0) selfHost.user selfHost.client) [] =
    .start fun _ => selfHost := by
  simp [selfNet, Internet.start]

theorem selfNet_machine (c : Tasks ops Machine Unit Thread) (packets : List (List Byte)) :
    (selfNet c packets).machine 0 = c := by
  simp [selfNet]

theorem selfNet_carry (c c' : Tasks ops Machine Unit Thread)
    (packets rest sent : List (List Byte)) :
    selfNet c' (rest ++ sent) = ⟨Function.update (selfNet c packets).machine 0 c',
      (selfNet c packets).carry 0 (fun a => if a = 0 then rest else [])
        fun d => if d = 0 then sent else []⟩ := by
  simp only [selfNet, Function.update_idem]
  congr 1
  funext a d
  simp only [Internet.carry]
  split_ifs <;> simp_all

theorem selfNet_offline {packets : List (List Byte)}
    (h : Internet.Reaches net₀ (selfNet c packets)) (mvs : List (Move Thread Choice))
    (hsome : (platform.replay mvs c).isSome = true)
    (hoff : ((after mvs c).state.trace.take
      ((after mvs c).state.trace.length - c.state.trace.length)).all Event.offline = true) :
    Internet.Reaches net₀ (selfNet (after mvs c) packets) := by
  have hmoves := h.offline mvs (selfNet_machine c packets) hsome hoff
  simpa only [selfNet, Function.update_idem] using hmoves

theorem selfNet_send {mv : Move Thread Choice} {data : Byte} (hmv : platform.step mv c = some c')
    (htrace : c'.state.trace =
      .sent 0 (selfLetter data).pktHdr (selfLetter data).payload false :: c.state.trace) :
    Internet.Step (selfNet c []) (selfNet c' [selfPacket data]) := by
  have hc := selfNet_machine c []
  have hreads : Reads (fun a => (selfNet c []).channel a 0) []
      (fun a => if a = 0 then [] else []) := by
    simpa [selfNet] using Reads.nil fun _ => []
  rw [← List.nil_append [selfPacket data], selfNet_carry c c' [] [] [selfPacket data]]
  refine .move 0 [] _ _ (by rwa [hc]) ?_ hreads fun d => ?_
  · rw [htrace, Internet.trace, hc, List.append_nil]
    rfl
  · rw [htrace, Internet.trace, hc, sentPackets]
    by_cases hd : d = 0
    · rw [if_pos ⟨hd.symm, rfl⟩, if_pos hd]
      rfl
    · rw [if_neg fun h => hd h.1.symm, if_neg hd, List.append_nil]

theorem selfNet_arrive {mv : Move Thread Choice} {packet : List Byte} (new : List Event)
    (hmv : platform.step mv c = some c') (htrace : c'.state.trace = new ++ c.state.trace)
    (harr : ∀ h, arrivedPackets (new ++ h) = arrivedPackets h ++ [packet])
    (hsent : ∀ d h, sentPackets d (new ++ h) = sentPackets d h) :
    Internet.Step (selfNet c [packet]) (selfNet c' []) := by
  have hc := selfNet_machine c [packet]
  have hreads : Reads (fun a => (selfNet c [packet]).channel a 0) [packet]
      (fun a => if a = 0 then [] else []) := by
    have hrest : Function.update (fun a => (selfNet c [packet]).channel a 0) 0 [] =
        fun _ => [] := by
      funext a
      by_cases ha : a = 0
      · rw [ha, Function.update_self]
      · rw [Function.update_of_ne ha]
        exact if_neg fun h => ha h.1
    have hfirst : (selfNet c [packet]).channel 0 0 = packet :: [] := by
      simp [selfNet]
    refine .cons 0 hfirst ?_
    rw [hrest]
    simpa using Reads.nil fun _ => []
  rw [show selfNet c' [] = _ from selfNet_carry c c' [packet] [] []]
  refine .move 0 [packet] _ _ (by rwa [hc]) ?_ hreads fun d => ?_
  · rw [htrace, Internet.trace, hc, harr]
  · rw [htrace, Internet.trace, hc, ite_self, List.append_nil, hsent]

/-- A machine sends two messages to itself, and its main thread takes them off. -/
theorem mail_delivered_self :
    ∃ net mails, Internet.Reaches (.start fun _ => selfHost) net ∧
      tookItems 0 (net.trace 0) = [1, 2] ∧
      (net.machine 0).state.postOffice.Holding (tookItems 0 (net.trace 0)) mails ∧
      mails.filter (·.pktHdr.sender = 0) <+ (passedMail 0 (net.trace 0)).filter
        (fun mail => mail.pktHdr.dest = 0 ∧ mail.inBox 0) := by
  have hready : Internet.Reaches (.start fun _ => selfHost) (selfNet selfReady []) :=
    selfNet_offline (selfNet_start ▸ .refl) _ (by decide +kernel) (by decide +kernel)
  have hsent : Internet.Step (selfNet selfReady []) (selfNet selfSent [selfPacket 7]) :=
    selfNet_send (step_after (by decide +kernel)) (by decide +kernel)
  have hwaiting : Internet.Reaches (.start fun _ => selfHost)
      (selfNet selfWaiting [selfPacket 7]) :=
    selfNet_offline (hready.tail hsent) _ (by decide +kernel) (by decide +kernel)
  have harrived : Internet.Step (selfNet selfWaiting [selfPacket 7]) (selfNet selfArrived []) :=
    selfNet_arrive [.up .messageAvailable none, .arrived (selfPacket 7), .up .messageSent none,
      .ready 0, .woke .messageSent 0]
      (step_after (by decide +kernel)) (by decide +kernel) (fun _ => rfl) fun _ _ => rfl
  have hagain : Internet.Reaches (.start fun _ => selfHost) (selfNet selfReadyAgain []) :=
    selfNet_offline (hwaiting.tail harrived) _ (by decide +kernel) (by decide +kernel)
  have hsent' : Internet.Step (selfNet selfReadyAgain []) (selfNet selfSentAgain [selfPacket 8]) :=
    selfNet_send (step_after (by decide +kernel)) (by decide +kernel)
  have hasleep : Internet.Reaches (.start fun _ => selfHost) (selfNet selfAsleep [selfPacket 8]) :=
    selfNet_offline (hagain.tail hsent') _ (by decide +kernel) (by decide +kernel)
  have harrived' : Internet.Step (selfNet selfAsleep [selfPacket 8])
      (selfNet selfArrivedAgain []) :=
    selfNet_arrive [.up .messageAvailable none, .ready 1, .woke .messageAvailable 1,
      .arrived (selfPacket 8), .up .messageSent none, .ready 0, .woke .messageSent 0]
      (step_after (by decide +kernel)) (by decide +kernel) (fun _ => rfl) fun _ _ => rfl
  have htaken : Internet.Reaches (.start fun _ => selfHost) (selfNet selfTaken []) :=
    selfNet_offline (hasleep.tail harrived') _ (by decide +kernel) (by decide +kernel)
  obtain ⟨⟨mails, hmails, hsub, -⟩, -⟩ := mail_delivered (fun _ => selfHost_postal) htaken 0 0
    (b := 0) (by decide)
  refine ⟨_, mails, htaken, ?_, hmails, hsub⟩
  rw [Internet.trace, selfNet_machine]
  decide +kernel

end runs
end Nachos.Threads
