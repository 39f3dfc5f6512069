import Nachos.FileSys.Clients

/-! The order of the transfers. However the calls are interleaved, each of their transfers behaves
as if it took place at once, at the moment its call released the array mutex. -/

namespace Nachos
open Lib Program

variable {ι : Type} [DecidableEq ι] {α β : Type}

/-! ## Histories of transfers -/

/-- What a call transfers while it holds the mutexes of the sectors `xs`. -/
inductive Transfer where
  | read (xs : List Nat) (bytes : List Byte)
  | write (xs : List Nat) (buf : List Byte)

/-- The disk after the transfers of all threads, the latest of which comes first. -/
def diskAfter (d : Nat → Sector) : List (ι × Transfer) → Nat → Sector
  | [] => d
  | (_, .read ..) :: H => diskAfter d H
  | (_, .write xs buf) :: H => writeBlocks (diskAfter d H) xs buf

/-- Every read returns the sectors as the writes before it have left them. -/
def Serial (d : Nat → Sector) : List (ι × Transfer) → Prop
  | [] => True
  | (_, .read xs bytes) :: H => bytes = blocks (diskAfter d H) xs ∧ Serial d H
  | (_, .write ..) :: H => Serial d H

def transfersOf (i : ι) : List (ι × Transfer) → List Transfer
  | [] => []
  | (j, t) :: H => if j = i then t :: transfersOf i H else transfersOf i H

theorem transfersOf_update {x : ι → List Transfer} {H : List (ι × Transfer)} {i : ι} {t : Transfer}
    (hx : ∀ j, x j = transfersOf j H) (j : ι) :
    Function.update x i (t :: x i) j = transfersOf j ((i, t) :: H) := by
  rw [transfersOf]
  by_cases hj : j = i
  · subst hj
    rw [Function.update_self, if_pos rfl, hx]
  · rw [Function.update_of_ne hj, if_neg fun h => hj h.symm, hx]

theorem writeBlocks_congr {d d' : Nat → Sector} {xs : List Nat} {buf : List Byte} {y : Nat}
    (h : d y = d' y) : writeBlocks d xs buf y = writeBlocks d' xs buf y := by
  induction xs generalizing d d' buf with
  | nil => exact h
  | cons x xs ih =>
    refine ih ?_
    by_cases hy : y = x
    · subst hy
      rw [Function.update_self, Function.update_self]
    · rw [Function.update_of_ne hy, Function.update_of_ne hy, h]

/-! ## What a call transfers -/

/-- `Makes p T q`: the phases `p` have made the transfers `T`, latest first, and come to `q`. -/
inductive Makes (p : Program phaseOps α) : List Transfer → Program phaseOps α → Prop
  | start : Makes p [] p
  | length {T : List Transfer} {n : FileNode} {k : Int → Program phaseOps α}
      (h : Makes p T (.call (S := phaseOps) (.length n) k)) : Makes p T (k n.length)
  | memory {T : List Transfer} {c : Nat} {k : List Byte → Program phaseOps α} {buf : List Byte}
      (h : Makes p T (.call (S := phaseOps) (.memory c) k)) (hb : buf.length = c) :
      Makes p T (k buf)
  | read {T : List Transfer} {xs : List Nat} {k : List Byte → Program phaseOps α}
      {bytes : List Byte} (h : Makes p T (.call (S := phaseOps) (.read xs) k)) :
      Makes p (.read xs bytes :: T) (k bytes)
  | write {T : List Transfer} {xs : List Nat} {buf : List Byte} {k : Unit → Program phaseOps α}
      (h : Makes p T (.call (S := phaseOps) (.write xs buf) k)) :
      Makes p (.write xs buf :: T) (k ())

def callPhases (W : Handle → Option FileNode) : (o : callOps.Op) → Program phaseOps (callOps.Res o)
  | .new _ => .ret (0 : Nat)
  | .readAt f numBytes position =>
    match W f with
    | some n => readPhases n numBytes position.toNat
    | none => .ret []
  | .writeAt f src position =>
    match W f with
    | some n => writePhases n src position.toNat
    | none => .ret (0 : Int)

def Client.OpensNothing (p : Client α) : Prop := 
  p.Uses fun o : CallOp => ∀ sector, o ≠ .new sector

/-! ## The invariant -/

def Op.isArrV : Op → Bool
  | .arrV => true
  | _ => false

/-- The transfers `H` account for an interleaving from the disk `d` on: they are in the order in
which the array mutex was released, they lead to the settled disk, and each thread has made its
own `x i` among them. -/
structure Explains (P : ι → Program phaseOps α) (d : Nat → Sector) (T : Set Nat)
    (x : ι → List Transfer) (l : List (ι × Op)) (S : Nat → Sector) (H : List (ι × Transfer)) :
    Prop where
  order : H.map Prod.fst = (l.filter fun y => y.2.isArrV).map Prod.fst
  serial : Serial d H
  disk : ∀ y ∈ T, S y = diskAfter d H y
  own : ∀ i, x i = transfersOf i H
  made : ∀ i, ∃ q, Makes (P i) (x i) q

def Explained (P : ι → Program phaseOps α) (d : Nat → Sector) (T : Set Nat)
    (x : ι → List Transfer) (l : List (ι × Op)) (S : Nat → Sector) : Prop :=
  ∃ H, Explains P d T x l S H

section explained
variable {P : ι → Program phaseOps α} {d : Nat → Sector} {T : Set Nat}
  {x : ι → List Transfer} {l : List (ι × Op)} {S : Nat → Sector} {H : List (ι × Transfer)}
  {i : ι} {F : FileSet}

theorem explains_start : Explains P d T (fun _ => []) [] d [] where
  order := rfl
  serial := trivial
  disk _ _ := rfl
  own _ := rfl
  made i := ⟨P i, .start⟩

theorem Explains.order_arrV (h : Explains P d T x l S H) (i : ι) (t : Transfer) :
    ((i, t) :: H).map Prod.fst =
      (((i, Op.arrV) :: l).filter fun y => y.2.isArrV).map Prod.fst := by
  rw [List.filter_cons_of_pos rfl, List.map_cons, List.map_cons, h.order]

theorem Explains.made_update (h : Explains P d T x l S H) {T' : List Transfer}
    {q : Program phaseOps α} (hq : Makes (P i) T' q) (j : ι) :
    ∃ q, Makes (P j) (Function.update x i T' j) q := by
  by_cases hj : j = i
  · subst hj
    rw [Function.update_self]
    exact ⟨q, hq⟩
  · rw [Function.update_of_ne hj]
    exact h.made j

theorem Explains.read (h : Explains P d T x l S H) {xs : List Nat} (hxs : ∀ y ∈ xs, y ∈ T)
    {q : Program phaseOps α} (hq : Makes (P i) (.read xs (blocks S xs) :: x i) q) :
    Explains P d T (Function.update x i (.read xs (blocks S xs) :: x i)) ((i, .arrV) :: l) S
      ((i, .read xs (blocks S xs)) :: H) where
  order := h.order_arrV i _
  serial := ⟨blocks_congr fun y hy => h.disk y (hxs y hy), h.serial⟩
  disk := h.disk
  own := transfersOf_update h.own
  made := h.made_update hq

theorem Explains.write (h : Explains P d T x l S H) {xs : List Nat} {buf : List Byte}
    {q : Program phaseOps α} (hq : Makes (P i) (.write xs buf :: x i) q) :
    Explains P d T (Function.update x i (.write xs buf :: x i)) ((i, .arrV) :: l)
      (writeBlocks S xs buf) ((i, .write xs buf) :: H) where
  order := h.order_arrV i _
  serial := h.serial
  disk y hy := writeBlocks_congr (h.disk y hy)
  own := transfersOf_update h.own
  made := h.made_update hq

omit [DecidableEq ι] in
theorem not_isArrV_of_local {o : Op} (h : o.Local F) : o.isArrV = false := by
  cases o with
  | arrV => exact h.elim
  | _ => rfl

theorem steadfast_explained : Steadfast F (Explained P d F.data) := by
  rintro x l S S' i o ⟨H, h⟩ ho hS
  refine ⟨H, ?_, h.serial, fun y hy => ?_, h.own, h.made⟩
  · rw [h.order, List.filter_cons_of_neg]
    rw [not_isArrV_of_local ho]
    exact Bool.false_ne_true
  · obtain ⟨m, hm, hy'⟩ := hy
    rw [hS y fun n hn he => F.hdr_data n hn m hm (he ▸ hy')]
    exact h.disk y ⟨m, hm, hy'⟩

/-! ## Clients keep it -/

def PhaseOp.ReadsIn (T : Set Nat) : PhaseOp → Prop
  | .read xs => ∀ y ∈ xs, y ∈ T
  | _ => True

theorem phased_makes (hlen : ∀ n len, F.len n len → len = n.length) {q : Program phaseOps β}
    (hq : q.Uses (PhaseOp.ReadsIn F.data)) {K : β → Program phaseOps α} {M : List Transfer}
    (hm : Makes (P i) M (q >>= K)) :
    Phased F (Explained P d F.data) i q (fun b M' => Makes (P i) M' (K b)) M := by
  induction q generalizing M with
  | ret b => exact hm
  | call o k ih =>
    cases o with
    | length n =>
      intro len hl
      obtain rfl := hlen n len hl
      exact ih _ (hq.2 _) hm.length
    | memory c => exact fun buf hb => ih _ (hq.2 _) (hm.memory hb)
    | read xs =>
      rintro x l S ⟨H, h⟩ rfl
      exact ⟨_, ⟨_, h.read hq.1 hm.read⟩, ih _ (hq.2 _) hm.read⟩
    | write xs buf =>
      rintro x l S ⟨H, h⟩ rfl
      exact ⟨_, ⟨_, h.write hm.write⟩, ih _ (hq.2 _) hm.write⟩

variable {n : FileNode}

theorem uses_readPhases (hn : n ∈ F.mem) (num : Int) (p : Nat) :
    (readPhases n num p).Uses (PhaseOp.ReadsIn F.data) := by
  refine ⟨trivial, fun len => ?_⟩
  change Int at len
  change (if num ≤ 0 ∨ p ≥ len then pure [] else readPhase n p _ : Program phaseOps _).Uses _
  split
  · trivial
  · exact ⟨fun y hy => ⟨n, hn, mem_data_of_mem_under hy⟩, fun _ => trivial⟩

theorem uses_fillPhases (hn : n ∈ F.mem) (needed : Bool) (buf : List Byte) (o j : Nat) :
    (fillPhases n needed buf o j).Uses (PhaseOp.ReadsIn F.data) := by
  cases needed with
  | false => trivial
  | true => exact (uses_readPhases hn 128 (128 * j)).bind fun _ => trivial

theorem uses_writePhases (hn : n ∈ F.mem) (src : List Byte) (p : Nat) :
    (writePhases n src p).Uses (PhaseOp.ReadsIn F.data) := by
  rw [writePhases]
  split
  · trivial
  · exact ⟨trivial, fun buf => (uses_fillPhases hn _ _ _ _).bind fun buf =>
      (uses_fillPhases hn _ _ _ _).bind fun buf => ⟨trivial, fun _ => trivial⟩⟩

theorem clientPhased_makes (hlen : ∀ n len, F.len n len → len = n.length)
    {W : Handle → Option FileNode} (hW : ∀ f n, W f = some n → n ∈ F.mem) {p : Client α}
    (hp : p.OpensNothing) {M : List Transfer} (hm : Makes (P i) M (p.translate (callPhases W))) :
    ClientPhased F (Explained P d F.data) i p W (fun a M' => Makes (P i) M' (.ret a)) M := by
  induction p generalizing M with
  | ret a => exact hm
  | call o k ih =>
    cases o with
    | new sector => exact (hp.1 sector rfl).elim
    | readAt f numBytes position =>
      intro n hf
      change Makes (P i) M (callPhases W (.readAt f numBytes position) >>= _) at hm
      rw [callPhases, hf] at hm
      exact (phased_makes hlen (uses_readPhases (hW f n hf) ..) hm).mono fun bs M' h =>
        ih bs (hp.2 bs) h
    | writeAt f src position =>
      intro n hf
      change Makes (P i) M (callPhases W (.writeAt f src position) >>= _) at hm
      rw [callPhases, hf] at hm
      exact (phased_makes hlen (uses_writePhases (hW f n hf) ..) hm).mono fun r M' h =>
        ih r (hp.2 r) h

end explained

/-! ## Every interleaving -/

/-- `H` is an order of the transfers in which the calls of the clients make sense: it is the order
in which the array mutex was released, every read returns what the writes before it have left, the
transfers of each client are those its calls come to, with the results that it was given, and once
all are finished the files are as the writes have left them. -/
structure SerialOrder (M : Set FileNode) (W : Handle → Option FileNode) (client : ι → Client α)
    (d : Nat → Sector) (c : Config kernelOps Kernel α ι) (H : List (ι × Transfer)) : Prop where
  order : H.map Prod.fst = (c.log.filter fun y => y.2.isArrV).map Prod.fst
  serial : Serial d H
  makes : ∀ i, ∃ q, Makes ((client i).translate (callPhases W)) (transfersOf i H) q ∧
    ∀ a, c.prog i = .ret a → q = .ret a
  disk : (∀ i, c.Finished i) → ∀ n ∈ M, ∀ x ∈ n.data, c.state.disk x = diskAfter d H x

omit [DecidableEq ι] in
theorem Settled.eq_of_nothing {T : Set Nat} {H : ι → Hold} {d S : Nat → Sector}
    (h : Settled T H d S) (hH : ∀ i, H i = .nothing) : S = d := by
  funext x
  refine h.disk x fun i v hv => ?_
  rw [hH i] at hv
  exact List.not_mem_nil hv

section serial
variable {M : Set FileNode} {W : Handle → Option FileNode} {s : Kernel} {client : ι → Client α}
  {c : Config kernelOps Kernel α ι}

/-- What is known of every configuration that the clients come to. -/
theorem explained_of_run (hM : Separate M) (hs : Settling M W s)
    (hc : ∀ i, InPlace M (client i) W) (hnew : ∀ i, (client i).OpensNothing)
    (hr : Config.Run Kernel.exec (fun _ _ _ => True)
      ⟨fun i => (client i).translate runCall, s, []⟩ c) :
    ∃ G : ι → Ghost (List Transfer),
      Tied hM.files s.names
        (Explained (fun i => (client i).translate (callPhases W)) s.disk hM.files.data) G c.log
        c.state ∧
      ∀ i a, c.prog i = .ret a → (G i).hold = .nothing ∧
        Makes ((client i).translate (callPhases W)) (G i).ext (.ret a) := by
  have hI := hs.tied (ι := ι) (e := fun _ => []) hM
    (E := Explained (fun i => (client i).translate (callPhases W)) s.disk hM.files.data)
    ⟨[], explains_start⟩
  have hW : ∀ f n, W f = some n → n ∈ M := fun f n hf => (hs.handle f n hf).1
  obtain ⟨G, hG, hS⟩ := Safe.sound
    (P := discipline hM.files s.names
      (Explained (fun i => (client i).translate (callPhases W)) s.disk hM.files.data)
      fun _ _ _ => True)
    (c := ⟨fun i => (client i).translate runCall, s, []⟩) hI
    (fun i => safe_client (g := ⟨.nothing, .start M W, []⟩) hM steadfast_explained (hc i) rfl rfl
      hW (clientPhased_makes (fun _ _ h => h) hW (hnew i) .start)) hr
  refine ⟨G, hG, fun i a ha => ?_⟩
  have h := hS i
  rw [ha] at h
  exact h

/-- Threads read and write inside open files, in any interleaving: there is one order of their
transfers in which each of them takes place at once. -/
theorem transfers_serial (hM : Separate M) (hs : Settling M W s)
    (hc : ∀ i, InPlace M (client i) W) (hnew : ∀ i, (client i).OpensNothing)
    (hr : Config.Run Kernel.exec (fun _ _ _ => True)
      ⟨fun i => (client i).translate runCall, s, []⟩ c) :
    ∃ H, SerialOrder M W client s.disk c H := by
  obtain ⟨G, hG, hret⟩ := explained_of_run hM hs hc hnew hr
  obtain ⟨S, hS, H, hH⟩ := hG.settled
  refine ⟨H, hH.order, hH.serial, fun i => ?_, fun hf n hn x hx => ?_⟩
  · obtain ⟨q, hq⟩ := hH.made i
    rw [hH.own i] at hq
    by_cases hfin : c.Finished i
    · obtain ⟨a, ha⟩ := hfin
      refine ⟨.ret a, ?_, fun b hb => ?_⟩
      · rw [← hH.own i]
        exact (hret i a ha).2
      · cases ha.symm.trans hb
        rfl
    · exact ⟨q, hq, fun a ha => absurd ⟨a, ha⟩ hfin⟩
  · have hnone : ∀ i, (G i).hold = .nothing := fun i => by
      obtain ⟨a, ha⟩ := hf i
      exact (hret i a ha).1
    rw [← hS.eq_of_nothing hnone]
    exact hH.disk x ⟨n, hn, hx⟩

end serial

def smallFile : FileNode where
  hdr := 2
  index := [3]
  data := [4, 5]
  fileType := 0
  numVisits := 0
  length := 130
  numSectors := 2
  content := List.replicate 130 0
  nodup := by decide
  lt := by decide
  tables := rfl
  direct := by decide
  count := rfl
  room := by decide
  size := rfl

def smallHdr : FileHeader where
  createTime := 0
  lastVisitTime := 0
  lastWriteTime := 0
  fileType := 0
  primaryIndexTable := fun i => if i.val = 0 then 3 else 0
  numVisits := 0
  numBytes := 130
  numSectors := 2

def withSmallFile : Kernel :=
  { Kernel.zeroed with
    disk := fun x =>
      if x = 2 then smallHdr.toSector
      else .ofWords fun j => if x = 3 ∧ j < 2 then .ofNat 32 (4 + j) else 0
    files := fun _ => { hdr := smallHdr, hdrSectorNumber := 2, seekPosition := 0 }
    nextFile := 2 }

theorem smallFile_on : smallFile.On withSmallFile.disk where
  fileType := by decide +kernel
  numVisits := by decide +kernel
  length := by decide +kernel
  numSectors := by decide +kernel
  lists i t h := by
    have hi : i < 1 := (List.getElem?_eq_some_iff.mp h).1
    interval_cases i
    cases h
    decide +kernel
  tables j x h := by
    have hj : j < 2 := (List.getElem?_eq_some_iff.mp h).1
    interval_cases j
    · cases h
      exact ⟨3, rfl, by decide +kernel⟩
    · cases h
      exact ⟨3, rfl, by decide +kernel⟩
  content := by decide +kernel

theorem separate_smallFile : Separate {smallFile} := by
  constructor
  · rintro m rfl n rfl -
    rfl
  · rintro m rfl n rfl
    decide
  · rintro m rfl n rfl
    decide
  · rintro m rfl n rfl
    decide

def smallHandles (f : Handle) : Option FileNode := if f < 2 then some smallFile else none

theorem settling_smallFile : Settling {smallFile} smallHandles withSmallFile := by
  refine ⟨⟨fun _ _ => rfl, rfl⟩, ?_, fun f n h => ?_⟩
  · rintro n rfl
    exact smallFile_on
  · rw [smallHandles] at h
    split at h
    · next hf =>
      cases h
      exact ⟨rfl, hf, rfl⟩
    · cases h

def writerAndReader : Bool → Client (List Byte)
  | false => .call (S := callOps) (.writeAt 0 [7, 8] 1) fun _ => .ret []
  | true => .call (S := callOps) (.readAt 1 4 0) .ret

/-- The reader has looked at the header before the writer runs, and goes on behind it. -/
def lateRead : List Bool :=
  List.replicate 10 true ++ List.replicate 47 false ++ List.replicate 12 true

theorem transfers_serial_lateRead :
    ∃ c, Config.runSchedule Kernel.exec lateRead
        ⟨fun i => (writerAndReader i).translate runCall, withSmallFile, []⟩ = some c ∧
      ∃ H, SerialOrder {smallFile} smallHandles writerAndReader withSmallFile.disk c H := by
  have hrun : (Config.runSchedule Kernel.exec lateRead
      ⟨fun i => (writerAndReader i).translate runCall, withSmallFile, []⟩).isSome = true := by
    decide +kernel
  obtain ⟨c, hc⟩ := Option.isSome_iff_exists.mp hrun
  refine ⟨c, hc, transfers_serial separate_smallFile settling_smallFile (fun i => ?_) (fun i => ?_)
    (Config.run_of_runSchedule hc)⟩
  · cases i with
    | false => exact ⟨smallFile, rfl, by decide, by decide, fun _ => trivial⟩
    | true => exact ⟨smallFile, rfl, by decide, by decide, fun _ => trivial⟩
  · cases i with
    | false => exact ⟨fun _ => CallOp.noConfusion, fun _ => trivial⟩
    | true => exact ⟨fun _ => CallOp.noConfusion, fun _ => trivial⟩

end Nachos
