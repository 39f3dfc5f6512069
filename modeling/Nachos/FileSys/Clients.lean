import Nachos.FileSys.LockedCalls

/-! Threads that open files and read and write inside them, in any interleaving: none of them
ever waits for a mutex while all the others do. -/

namespace Nachos
open Lib Program

variable {ι : Type} [DecidableEq ι] {α : Type}

/-! ## Clients -/

inductive CallOp where
  | new (sector : Int)
  | readAt (f : Handle) (numBytes position : Int)
  | writeAt (f : Handle) (src : List Byte) (position : Int)

def callOps : Signature where
  Op := CallOp
  Res
    | .new _ => Handle
    | .readAt .. => List Byte
    | .writeAt .. => Int

/-- A thread's code between its calls is arbitrary. -/
abbrev Client := Program callOps

def runCall : (o : callOps.Op) → Prog (callOps.Res o)
  | .new sector => OpenFile.new sector
  | .readAt f numBytes position => OpenFile.readAt f numBytes position
  | .writeAt f src position => OpenFile.writeAt f src position

/-- Every call opens one of the files `M`, or is on a handle of one and stays inside its
length; `W` tells what the handles are open on. -/
def InPlace (M : Set FileNode) : Client α → (Handle → Option FileNode) → Prop
  | .ret _, _ => True
  | .call (.new sector) k, W =>
    ∃ n ∈ M, sector = (n.hdr : Nat) ∧ ∀ f, InPlace M (k f) (Function.update W f (some n))
  | .call (.readAt f numBytes position) k, W =>
    ∃ n, W f = some n ∧ 0 ≤ position ∧ position + numBytes ≤ n.length ∧ ∀ bs, InPlace M (k bs) W
  | .call (.writeAt f src position) k, W =>
    ∃ n, W f = some n ∧ 0 ≤ position ∧ position + src.length ≤ n.length ∧ ∀ r, InPlace M (k r) W

/-- Files with headers of their own, and with no sector in two roles. -/
structure Separate (M : Set FileNode) : Prop where
  hdr : ∀ m ∈ M, ∀ n ∈ M, m.hdr = n.hdr → n = m
  hdr_index : ∀ m ∈ M, ∀ n ∈ M, m.hdr ∉ n.index
  hdr_data : ∀ m ∈ M, ∀ n ∈ M, m.hdr ∉ n.data
  index_data : ∀ m ∈ M, ∀ n ∈ M, ∀ x ∈ m.index, x ∉ n.data

def Separate.files {M : Set FileNode} (h : Separate M) : FileSet where
  mem := M
  len n len := len = n.length
  hdr_index := h.hdr_index
  hdr_data := h.hdr_data
  index_data := h.index_data

/-- Between calls, no mutex is taken and every file is on the disk; `W` tells what the handles
are open on. -/
structure Settling (M : Set FileNode) (W : Handle → Option FileNode) (s : Kernel) : Prop where
  quiet : s.Quiet
  on : ∀ n ∈ M, n.On s.disk
  handle : ∀ f n, W f = some n → n ∈ M ∧ s.OpenOn f n.hdr

def View.start (M : Set FileNode) (W : Handle → Option FileNode) : View where
  relies := M
  known := W
  fetched := ∅
  own _ := none

section start
variable {M : Set FileNode} {W : Handle → Option FileNode} {s : Kernel} {ε : Type} {e : ι → ε}

theorem FileNode.On.shape {n : FileNode} {d : Nat → Sector} (h : n.On d) (hM : Separate M) :
    hM.files.Shape n d := ⟨⟨h.lists, h.length⟩, h.tables⟩

omit [DecidableEq ι] in
theorem Settling.tied (h : Settling M W s) (hM : Separate M)
    {E : (ι → ε) → List (ι × Op) → (Nat → Sector) → Prop} (hE : E e [] s.disk) :
    Tied hM.files s.names E (fun i => ⟨.nothing, .start M W, e i⟩) [] s where
  names := rfl
  locks :=
    { sector := fun x hx => ⟨fun _ => h.quiet.mutex x hx, fun _ hi => absurd hi List.not_mem_nil,
        fun _ _ hi => absurd hi List.not_mem_nil⟩
      array := ⟨fun _ => h.quiet.arrayMutex, fun _ hi => Bool.noConfusion hi,
        fun _ _ hi => Bool.noConfusion hi⟩ }
  sites :=
    { fits := fun _ =>
        { mem := fun _ hn => hn
          shape := fun n hn => (h.on n hn).shape hM
          known := fun f n hf => ⟨(h.handle f n hf).1, (h.handle f n hf).2⟩
          fetched := fun _ _ _ hf => hf.elim
          own := fun _ _ hf => (Option.some_ne_none _ hf.symm).elim }
      compat := fun _ _ _ =>
        { agree := fun _ _ _ hm hn => Option.some.inj (hm.symm.trans hn)
          apart := fun _ _ hf => (Option.some_ne_none _ hf.symm).elim } }
  settled := ⟨s.disk, ⟨fun _ _ => rfl, fun _ _ hp => absurd hp List.not_mem_nil⟩, hE⟩

end start

/-! ## Clients under the discipline -/

/-- The calls of a client keep `E` as their phases do; `W` tells what the handles are open on. -/
def ClientPhased {ε : Type} (F : FileSet) (E : (ι → ε) → List (ι × Op) → (Nat → Sector) → Prop)
    (i : ι) : Client α → (Handle → Option FileNode) → (α → ε → Prop) → ε → Prop
  | .ret a, _, Q, e => Q a e
  | .call (.new _) k, W, Q, e =>
    ∀ f n, ClientPhased F E i (k f) (Function.update W f (some n)) Q e
  | .call (.readAt f numBytes position) k, W, Q, e => ∀ n, W f = some n →
    Phased F E i (readPhases n numBytes position.toNat)
      (fun bs e' => ClientPhased F E i (k bs) W Q e') e
  | .call (.writeAt f src position) k, W, Q, e => ∀ n, W f = some n →
    Phased F E i (writePhases n src position.toNat) (fun r e' => ClientPhased F E i (k r) W Q e') e

section client
variable {ε : Type} {M : Set FileNode} {N : List CString} {i : ι}
  {E : (ι → ε) → List (ι × Op) → (Nat → Sector) → Prop} {A : List (ι × Op) → ι → Op → Prop}

theorem safe_client (hM : Separate M) (hE : Steadfast hM.files E) {p : Client α} {g : Ghost ε}
    (hp : InPlace M p g.view.known) (hh : g.hold = .nothing) (hr : g.view.relies = M)
    (hk : ∀ f n, g.view.known f = some n → n ∈ M) {Q : α → ε → Prop}
    (hQ : ClientPhased hM.files E i p g.view.known Q g.ext) :
    Safe Kernel.exec (discipline hM.files N E A) i (p.translate runCall)
      (fun a g => g.hold = .nothing ∧ Q a g.ext) g := by
  induction p generalizing g with
  | ret a => exact ⟨hh, hQ⟩
  | call o k ih =>
    cases o with
    | new sector =>
      obtain ⟨n, hn, hs, hk'⟩ := hp
      refine Safe.bind (safe_new hE hs hh (hr ▸ hn) hn (fun m hm => hM.hdr n hn m hm) fun f => ?_)
      refine ih f (hk' f) hh hr (fun f' n' hf' => ?_) (hQ f n)
      change Function.update g.view.known f (some n) f' = some n' at hf'
      by_cases hff : f' = f
      · subst hff
        rw [Function.update_self, Option.some.injEq] at hf'
        exact hf' ▸ hn
      · rw [Function.update_of_ne hff] at hf'
        exact hk f' n' hf'
    | readAt f numBytes position =>
      obtain ⟨n, hf, hpos, hlen, hk'⟩ := hp
      have hn := hk f n hf
      have hle := n.length_le
      have hroom := n.room
      obtain ⟨p, rfl⟩ := Int.eq_ofNat_of_zero_le hpos
      refine Safe.bind (safe_readAt hE ⟨hf, hr ▸ hn, hn⟩ hh (by omega) (fun len hl => ?_)
        (hQ n hf) fun bs e _ hbs => ?_)
      · obtain rfl : len = n.length := hl
        omega
      · exact ih bs (hk' bs) rfl hr hk hbs
    | writeAt f src position =>
      obtain ⟨n, hf, hpos, hlen, hk'⟩ := hp
      have hn := hk f n hf
      have hroom := n.room
      obtain ⟨p, rfl⟩ := Int.eq_ofNat_of_zero_le hpos
      refine Safe.bind (safe_writeAt hE ⟨hf, hr ▸ hn, hn⟩ hh (by omega) (fun len hl => ?_)
        (hQ n hf) fun e he => ?_)
      · obtain rfl : len = n.length := hl
        omega
      · exact ih _ (hk' _) rfl hr hk he

end client

/-! ## No deadlock -/

theorem phased_trivial {F : FileSet} {i : ι} {p : Program phaseOps α} {e : Unit}
    {Q : α → Unit → Prop} (hQ : ∀ a, Q a ()) :
    Phased F (fun (_ : ι → Unit) _ _ => True) i p Q e := by
  induction p with
  | ret a => exact hQ a
  | call o k ih =>
    cases o with
    | length n => exact fun len _ => ih len
    | memory c => exact fun buf _ => ih buf
    | read xs => exact fun _ _ _ _ _ => ⟨(), trivial, ih _⟩
    | write xs buf => exact fun _ _ _ _ _ => ⟨(), trivial, ih _⟩

theorem clientPhased_trivial {F : FileSet} {i : ι} {p : Client α} {W : Handle → Option FileNode} :
    ClientPhased F (fun (_ : ι → Unit) _ _ => True) i p W (fun _ _ => True) () := by
  induction p generalizing W with
  | ret a => trivial
  | call o k ih =>
    cases o with
    | new sector => exact fun f n => ih f
    | readAt f numBytes position => exact fun n _ => phased_trivial fun a => ih a
    | writeAt f src position => exact fun n _ => phased_trivial fun a => ih a

omit [DecidableEq ι] in
theorem steadfast_true {F : FileSet} : Steadfast F fun (_ : ι → Unit) _ _ => True :=
  fun _ _ _ _ _ _ _ _ _ => trivial

def Op.isP : Op → Bool
  | .rwP _ => true
  | .arrP => true
  | _ => false

section deadlock
variable {ε : Type} {F : FileSet} {N : List CString}
  {E : (ι → ε) → List (ι × Op) → (Nat → Sector) → Prop} {G : ι → Ghost ε}
  {c : Config kernelOps Kernel α ι} {Q : α → Ghost ε → Prop}

theorem mayWait_of_blocked {i : ι} {o : Op} (hI : Tied F N E G c.log c.state)
    (hS : Safe Kernel.exec (discipline F N E fun _ _ _ => True) i (c.prog i) Q (G i))
    (hb : c.BlockedIn Kernel.exec i o) : mayWait (G i).hold o := by
  obtain ⟨k, hc, ho⟩ := hb
  rw [hc] at hS
  have := hS G _ _ hI rfl trivial
  rwa [ho] at this

theorem mutex_of_blocked {x : Int} {s : Kernel} (h : Kernel.exec (.rwP x) s = .block) :
    x.toNat < 1024 ∧ s.mutex x.toNat = 0 := by
  rw [Kernel.exec] at h
  split at h
  · split at h
    · next hx hm => exact ⟨by omega, hm⟩
    · cases h
  · cases h

theorem arrayMutex_of_blocked {s : Kernel} (h : Kernel.exec .arrP s = .block) :
    s.arrayMutex = 0 := by
  rw [Kernel.exec] at h
  split at h
  · assumption
  · cases h

/-- In no state that the discipline allows do all unfinished threads wait. -/
theorem not_deadlocked (hI : Tied F N E G c.log c.state)
    (hS : ∀ i, Safe Kernel.exec (discipline F N E fun _ _ _ => True) i (c.prog i) Q (G i))
    (hQ : ∀ a g, Q a g → g.hold = .nothing) {i : ι} (hi : ¬ c.Finished i) :
    ∃ j, ¬ c.Finished j ∧ ∀ o, ¬ c.BlockedIn Kernel.exec j o := by
  by_contra hnone
  push Not at hnone
  have hbusy : ∀ j, (G j).hold ≠ .nothing → ¬ c.Finished j := by
    rintro j hj ⟨a, ha⟩
    have := hS j
    rw [ha] at this
    exact hj (hQ a _ this)
  have hwait : ∀ j, ¬ c.Finished j →
      (∃ x, mayWait (G j).hold (.rwP x) ∧ x.toNat < 1024 ∧ c.state.mutex x.toNat = 0) ∨
        mayWait (G j).hold .arrP ∧ c.state.arrayMutex = 0 := by
    intro j hj
    obtain ⟨o, hb⟩ := hnone j hj
    have hmay := mayWait_of_blocked hI (hS j) hb
    obtain ⟨k, -, ho⟩ := hb
    cases o with
    | rwP x => exact .inl ⟨x, hmay, mutex_of_blocked ho⟩
    | arrP => exact .inr ⟨hmay, arrayMutex_of_blocked ho⟩
    | _ => exact hmay.elim
  -- whoever holds a sector waits for another one in the loop, where it holds the array mutex
  have hloop : ∀ j x, x ∈ (G j).hold.locked → (G j).hold.array = true := by
    intro j x hx
    have hne : (G j).hold.locked ≠ [] := List.ne_nil_of_mem hx
    rcases hwait j (hbusy j fun h => hne (by rw [h]; rfl)) with ⟨y, hy, -⟩ | ⟨hy, -⟩
    · exact hy.2 hne
    · exact absurd hy.1 hne
  -- and the sector it waits for is held by a thread in the loop, so by itself
  have hnot : ∀ j, (G j).hold.array ≠ true := by
    intro j hj
    rcases hwait j (hbusy j fun h => by rw [h] at hj; exact Bool.noConfusion hj) with
      ⟨y, hy, hlt, hm⟩ | ⟨hy, -⟩
    · obtain ⟨k, hk⟩ := (hI.locks.sector _ hlt).exists_holder hm
      obtain rfl : k = j := hI.locks.array.once k j (hloop k _ hk) hj
      exact hy.1 hk
    · exact Bool.noConfusion (hj.symm.trans hy.2)
  rcases hwait i hi with ⟨y, -, hlt, hm⟩ | ⟨-, hm⟩
  · obtain ⟨k, hk⟩ := (hI.locks.sector _ hlt).exists_holder hm
    exact hnot k (hloop k _ hk)
  · obtain ⟨k, hk⟩ := hI.locks.array.exists_holder hm
    exact hnot k hk

end deadlock

/-- However threads that open files and read and write inside them are interleaved, they are
never all stuck in `rw_P` and `arr_P`. -/
theorem clients_never_deadlock {M : Set FileNode} (hM : Separate M)
    {W : Handle → Option FileNode} {s : Kernel} (hs : Settling M W s) {client : ι → Client α}
    (hc : ∀ i, InPlace M (client i) W) {c : Config kernelOps Kernel α ι}
    (hr : Config.Run Kernel.exec (fun _ _ _ => True)
      ⟨fun i => (client i).translate runCall, s, []⟩ c) :
    ¬ ((∃ i, ¬ c.Finished i) ∧
      ∀ i, ¬ c.Finished i → ∃ o : Op, o.isP ∧ c.BlockedIn Kernel.exec i o) := by
  rintro ⟨⟨i, hi⟩, hall⟩
  have hI := hs.tied (ι := ι) (e := fun _ => ()) hM (E := fun _ _ _ => True) trivial
  obtain ⟨G, hG, hS⟩ := Safe.sound
    (P := discipline hM.files s.names (fun _ _ _ => True) fun _ _ _ => True)
    (c := ⟨fun i => (client i).translate runCall, s, []⟩) hI
    (fun i => safe_client (g := ⟨.nothing, .start M W, ()⟩) hM steadfast_true (hc i) rfl rfl
      (fun f n hf => (hs.handle f n hf).1) clientPhased_trivial) hr
  obtain ⟨j, hj, hfree⟩ := not_deadlocked hG hS (fun _ _ h => h.1) hi
  obtain ⟨o, -, hb⟩ := hall j hj
  exact hfree o hb

def emptyFile : FileNode where
  hdr := 0
  index := []
  data := []
  fileType := 0
  numVisits := 0
  length := 0
  numSectors := 0
  content := []
  nodup := by decide
  lt := by decide
  tables := rfl
  direct := by decide
  count := rfl
  room := by decide
  size := rfl

theorem emptyFile_on : emptyFile.On Kernel.zeroed.disk where
  fileType := by decide +kernel
  numVisits := by decide +kernel
  length := by decide +kernel
  numSectors := by decide +kernel
  lists _ _ h := by cases h
  tables _ _ h := by cases h
  content := rfl

def openAndRead : Client (List Byte) :=
  .call (S := callOps) (.new 0) fun f => .call (S := callOps) (.readAt f 0 0) .ret

def twoReaders : Config kernelOps Kernel (List Byte) Bool :=
  ⟨fun _ => openAndRead.translate runCall, .zeroed, []⟩

/-- The first one has the mutex of the header, and the second one waits for it. -/
theorem clients_never_deadlock_waiting :
    ∃ c, Config.runSchedule Kernel.exec [false, false, true] twoReaders = some c ∧
      c.BlockedIn Kernel.exec true (.rwP 0) ∧
      ¬ ((∃ i, ¬ c.Finished i) ∧
        ∀ i, ¬ c.Finished i → ∃ o : Op, o.isP ∧ c.BlockedIn Kernel.exec i o) := by
  obtain ⟨c, hc⟩ : ∃ c, Config.runSchedule Kernel.exec [false, false, true] twoReaders = some c :=
    ⟨_, rfl⟩
  refine ⟨c, hc, ?_, ?_⟩
  · obtain rfl := Option.some.inj hc
    exact ⟨_, rfl, rfl⟩
  refine clients_never_deadlock (M := {emptyFile}) (W := fun _ => none) (s := .zeroed) ?_ ?_ ?_
    (Config.run_of_runSchedule hc)
  · constructor
    · rintro m rfl n rfl -
      rfl
    · rintro m rfl n rfl h
      cases h
    · rintro m rfl n rfl h
      cases h
    · rintro m rfl n rfl x h
      cases h
  · refine ⟨⟨fun _ _ => rfl, rfl⟩, ?_, fun f n h => by cases h⟩
    rintro n rfl
    exact emptyFile_on
  · intro i
    refine ⟨emptyFile, rfl, rfl, fun f => ?_⟩
    exact ⟨emptyFile, Function.update_self .., by decide, by decide, fun _ => trivial⟩

end Nachos
