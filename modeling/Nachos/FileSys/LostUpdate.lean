import Nachos.FileSys.Serial
import Mathlib.Data.Set.Lattice
import Mathlib.Order.CompletePartialOrder
import Mathlib.Order.Interval.Set.Defs

/-! Two writes inside one file at the same time. Each of them reads the sectors that it covers in
part by a call that locks for itself, and only then locks the sectors that it stores as a whole. -/

namespace Nachos
open Lib Program

/-! ## Two writes -/

/-- A call `WriteAt(src, |src|, pos)` on the handle `file`. -/
structure WriteCall where
  file : Handle
  src : List Byte
  pos : Nat

namespace WriteCall

def run (w : WriteCall) : Prog Int := OpenFile.writeAt w.file w.src w.pos

def range (w : WriteCall) : Set Nat := Set.Ico w.pos (w.pos + w.src.length)

theorem mem_range {w : WriteCall} {b : Nat} :
    b ∈ w.range ↔ w.pos ≤ b ∧ b < w.pos + w.src.length := Iff.rfl

theorem mem_range_one {f : Handle} {a : Byte} {p b : Nat} :
    b ∈ (WriteCall.mk f [a] p).range ↔ b = p := by
  change p ≤ b ∧ b < p + 1 ↔ b = p
  omega

/-- A byte that the call does not overwrite, in a block that it writes to. -/
def Beside (w : WriteCall) (b : Nat) : Prop := b ∉ w.range ∧ ∃ b' ∈ w.range, b' / 128 = b / 128

theorem beside_iff {w : WriteCall} {b : Nat} (hk : 0 < w.src.length) :
    w.Beside b ↔ (b < w.pos ∨ w.pos + w.src.length ≤ b) ∧
      w.pos / 128 ≤ b / 128 ∧ b / 128 ≤ (w.pos + w.src.length - 1) / 128 := by
  rw [Beside, mem_range]
  constructor
  · rintro ⟨hb, b', hb', he⟩
    rw [mem_range] at hb'
    omega
  · rintro ⟨hb, h₁, h₂⟩
    refine ⟨by omega, ?_⟩
    rcases hb with hb | hb
    · exact ⟨w.pos, ⟨le_rfl, by omega⟩, by omega⟩
    · exact ⟨w.pos + w.src.length - 1, ⟨by omega, by omega⟩, by omega⟩

def Keeps (w : WriteCall) (new L : List Byte) : Prop :=
  new.length ≤ L.length ∧ ∀ b < new.length, w.Beside b → L[b]? = new[b]?

end WriteCall

def bothWritten (old : List Byte) (w : Bool → WriteCall) : List Byte :=
  splice (splice old (w false).pos (w false).src) (w true).pos (w true).src

/-- In a block that both calls write to, the file has the bytes already that they write. -/
def NothingToLose (old : List Byte) (w : Bool → WriteCall) : Prop :=
  ∀ i, ∀ b ∈ (w i).range, (∃ b' ∈ (w !i).range, b' / 128 = b / 128) →
    old[b]? = (w i).src[b - (w i).pos]?

section bytes
variable {old : List Byte} {w : Bool → WriteCall} {b : Nat}

theorem length_bothWritten (hin : ∀ i, (w i).pos + (w i).src.length ≤ old.length) :
    (bothWritten old w).length = old.length := by
  have h₀ := length_splice (hin false)
  rw [bothWritten, length_splice (by rw [h₀]; exact hin true), h₀]

theorem getElem?_bothWritten (hin : ∀ i, (w i).pos + (w i).src.length ≤ old.length) (b : Nat) :
    (bothWritten old w)[b]? =
      if (w true).pos ≤ b ∧ b < (w true).pos + (w true).src.length then
        (w true).src[b - (w true).pos]?
      else if (w false).pos ≤ b ∧ b < (w false).pos + (w false).src.length then
        (w false).src[b - (w false).pos]?
      else old[b]? := by
  have h₀ := length_splice (hin false)
  rw [bothWritten, getElem?_splice (by rw [h₀]; exact hin true), getElem?_splice (hin false)]

theorem bothWritten_of_mem (hin : ∀ i, (w i).pos + (w i).src.length ≤ old.length)
    (hdis : Disjoint (w false).range (w true).range) {i : Bool} (hb : b ∈ (w i).range) :
    (bothWritten old w)[b]? = (w i).src[b - (w i).pos]? := by
  rw [getElem?_bothWritten hin]
  cases i with
  | true => exact if_pos hb
  | false => exact (if_neg (Set.disjoint_left.mp hdis hb)).trans (if_pos hb)

theorem bothWritten_of_not_mem (hin : ∀ i, (w i).pos + (w i).src.length ≤ old.length)
    (hb : ∀ i, b ∉ (w i).range) : (bothWritten old w)[b]? = old[b]? := by
  rw [getElem?_bothWritten hin]
  exact (if_neg (hb true)).trans (if_neg (hb false))

theorem NothingToLose.beside (h : NothingToLose old w)
    (hin : ∀ i, (w i).pos + (w i).src.length ≤ old.length)
    (hdis : Disjoint (w false).range (w true).range) {i : Bool} (hb : (w i).Beside b) :
    (bothWritten old w)[b]? = old[b]? := by
  by_cases ho : b ∈ (w !i).range
  · rw [bothWritten_of_mem hin hdis ho, h (!i) b ho (by rw [Bool.not_not]; exact hb.2)]
  · refine bothWritten_of_not_mem hin fun j => ?_
    by_cases hj : j = i
    · exact hj ▸ hb.1
    · exact (Bool.eq_not_of_ne hj) ▸ ho

end bytes

/-! ## Where nothing can be lost -/

/-- The bytes of the file while the calls run; `x` tells which of them have stored. -/
structure Between (old : List Byte) (w : Bool → WriteCall) (x : Bool → Bool) (L : List Byte) :
    Prop where
  bytes : ∀ b < old.length, L[b]? = old[b]? ∨ L[b]? = (bothWritten old w)[b]?
  done : ∀ i, x i = true → ∀ b ∈ (w i).range, L[b]? = (bothWritten old w)[b]?

def BetweenOn (n : FileNode) (w : Bool → WriteCall) (x : Bool → Bool) (_ : List (Bool × Op))
    (S : Nat → Sector) : Prop := Between n.content w x (blocks S n.data)

theorem separate_singleton (n : FileNode) : Separate {n} where
  hdr m hm k hk _ := (Set.eq_of_mem_singleton hk).trans (Set.eq_of_mem_singleton hm).symm
  hdr_index m hm k hk := by
    rw [Set.eq_of_mem_singleton hm, Set.eq_of_mem_singleton hk]
    exact n.hdr_not_mem_index
  hdr_data m hm k hk := by
    rw [Set.eq_of_mem_singleton hm, Set.eq_of_mem_singleton hk]
    exact n.hdr_not_mem_data
  index_data m hm k hk x hx := by
    rw [Set.eq_of_mem_singleton hm] at hx
    rw [Set.eq_of_mem_singleton hk]
    exact n.index_not_mem_data hx

section inPlace
variable {n : FileNode} {w : Bool → WriteCall} {i : Bool}

theorem steadfast_between : Steadfast (separate_singleton n).files (BetweenOn n w) := by
  intro x l S S' i o h _ hS
  have hb : blocks S' n.data = blocks S n.data := by
    refine blocks_congr fun y hy => hS y ?_
    rintro m rfl rfl
    exact m.hdr_not_mem_data hy
  rw [BetweenOn, hb]
  exact h

theorem phased_fill {needed : Bool} {buf : List Byte} {o j : Nat} (hj : 128 * j < n.length)
    {P : List Byte → Prop} (hP : ∀ x l S, BetweenOn n w x l S → P (blocks S n.data))
    (hex : ∃ L, P L) {e : Bool} :
    Phased (separate_singleton n).files (BetweenOn n w) i (fillPhases n needed buf o j)
      (fun buf' e' => e' = e ∧ ∃ L, P L ∧ buf' =
        if needed then splice buf o (((L.take n.length.toNat).drop (128 * j)).take 128) else buf)
      e := by
  cases needed with
  | false =>
    obtain ⟨L, hL⟩ := hex
    exact ⟨rfl, L, hL, rfl⟩
  | true =>
    refine phased_bind.mpr ?_
    rintro len rfl
    change Phased _ _ i (if (128 : Int) ≤ 0 ∨ ((128 * j : Nat) : Int) ≥ n.length then pure []
      else readPhase n (128 * j) (min 128 (n.length - (128 * j : Nat))).toNat) _ e
    rw [if_neg (by omega)]
    rintro x l S hS rfl
    refine ⟨x i, by rwa [Function.update_eq_self], rfl, _, hP x l S hS, ?_⟩
    have hk : 0 < (min 128 (n.length - (128 * j : Nat))).toNat := by omega
    have hoff : 128 * j % 128 = 128 * j - 128 * (128 * j / 128) := by omega
    rw [hoff, blocks_under hk, if_pos rfl, List.drop_take, List.take_take]
    congr 2
    omega

theorem keeps_of_between (hw : NothingToLose n.content w)
    (hin : ∀ i, (w i).pos + (w i).src.length ≤ n.content.length)
    (hdis : Disjoint (w false).range (w true).range) {x : Bool → Bool} {l : List (Bool × Op)}
    {S : Nat → Sector} (h : BetweenOn n w x l S) :
    (w i).Keeps (bothWritten n.content w) (blocks S n.data) := by
  have hsize := n.size
  have hroom := n.room
  rw [WriteCall.Keeps, length_bothWritten hin, length_blocks]
  refine ⟨by omega, fun b hb hbeside => ?_⟩
  rcases h.bytes b hb with h | h
  · rw [h, hw.beside hin hdis hbeside]
  · exact h

theorem phased_write (hw : NothingToLose n.content w)
    (hin : ∀ i, (w i).pos + (w i).src.length ≤ n.content.length)
    (hdis : Disjoint (w false).range (w true).range) (hk : 0 < (w i).src.length) {e : Bool} :
    Phased (separate_singleton n).files (BetweenOn n w) i (writePhase n (w i).src (w i).pos)
      (fun _ e' => e' = true) e := by
  have hi := hin i
  have hsize := n.size
  have hroom := n.room
  have hnew : (bothWritten n.content w).length = n.length.toNat :=
    (length_bothWritten hin).trans hsize
  have hkeeps := fun x l S => keeps_of_between (i := i) (x := x) (l := l) (S := S) hw hin hdis
  have hex : ∃ L, (w i).Keeps (bothWritten n.content w) L := ⟨_, le_rfl, fun _ _ _ => rfl⟩
  have hfirst : 128 * (((w i).pos / 128 : Nat) : Int) < n.length := by omega
  have hlast : 128 * ((((w i).pos + (w i).src.length - 1) / 128 : Nat) : Int) < n.length := by omega
  intro buf hbuf
  change Phased _ _ i (fillPhases n _ buf 0 ((w i).pos / 128) >>= _) _ e
  refine phased_bind.mpr ((phased_fill hfirst hkeeps hex).mono ?_)
  rintro buf₁ _ ⟨rfl, L₁, hL₁, h₁⟩
  refine phased_bind.mpr ((phased_fill hlast hkeeps hex).mono ?_)
  rintro buf₂ _ ⟨rfl, L₂, hL₂, h₂⟩
  rw [WriteCall.Keeps, hnew] at hL₁ hL₂
  obtain ⟨hl, hfst, hlst⟩ := getElem?_filled rfl rfl hk (by omega) hL₁.1 hL₂.1 hbuf
    decide_eq_true_iff decide_eq_true_iff
    (fun b hb hlt hne => hL₁.2 b hlt ((WriteCall.beside_iff hk).mpr ⟨hne, by omega, by omega⟩))
    (fun b hb hlt hne => hL₂.2 b hlt ((WriteCall.beside_iff hk).mpr ⟨hne, by omega, by omega⟩))
    h₁ h₂
  rintro x l S hS rfl
  refine ⟨true, ?_, rfl⟩
  have hlen : (splice buf₂ ((w i).pos - 128 * ((w i).pos / 128)) (w i).src).length =
      128 * (((w i).pos + (w i).src.length - 1) / 128 + 1 - (w i).pos / 128) := by
    rw [length_splice (by omega), hl, hbuf]
  have hstored : ∀ b, b < n.content.length →
      (blocks (writeBlocks S (n.under (w i).pos (w i).src.length)
        (splice buf₂ ((w i).pos - 128 * ((w i).pos / 128)) (w i).src)) n.data)[b]? =
      if (w i).pos / 128 ≤ b / 128 ∧ b / 128 ≤ ((w i).pos + (w i).src.length - 1) / 128 then
        (bothWritten n.content w)[b]?
      else (blocks S n.data)[b]? := by
    intro b hb
    rw [FileNode.under, blocks_writeBlocks n.data_nodup (by omega) hlen,
      getElem?_splice (by rw [hlen, length_blocks]; omega), hlen]
    split
    · next hc =>
      rw [if_pos (by omega), getElem?_splice (by omega)]
      split
      · next hr =>
        rw [bothWritten_of_mem hin hdis (i := i) ⟨by omega, by omega⟩]
        congr 1
        omega
      · next hr =>
        rcases Nat.lt_or_ge b (w i).pos with h | h
        · exact hfst b (by omega) h
        · exact hlst b (by omega) (by omega) (by omega)
    · next hc => rw [if_neg (by omega)]
  constructor
  · intro b hb
    rw [hstored b hb]
    split
    · exact .inr rfl
    · exact hS.bytes b hb
  · intro j hj b hb
    have hlt : b < n.content.length := by
      have := hin j
      rw [WriteCall.mem_range] at hb
      omega
    rw [hstored b hlt]
    split
    · rfl
    · next hc =>
      have hji : j ≠ i := by
        rintro rfl
        rw [WriteCall.mem_range] at hb
        omega
      rw [Function.update_of_ne hji] at hj
      exact hS.done j hj b hb

variable {s : Kernel} {c : Config kernelOps Kernel Int Bool}

def WriteCall.client (w : WriteCall) : Client Int :=
  .call (S := callOps) (.writeAt w.file w.src w.pos) .ret

theorem WriteCall.translate_client (w : WriteCall) : w.client.translate runCall = w.run :=
  bind_ret w.run

def handlesOf (n : FileNode) (w : Bool → WriteCall) (f : Handle) : Option FileNode :=
  if f = (w false).file ∨ f = (w true).file then some n else none

theorem handlesOf_file (n : FileNode) (w : Bool → WriteCall) (i : Bool) :
    handlesOf n w (w i).file = some n :=
  if_pos (by cases i <;> simp)

theorem settling_handlesOf (hq : s.Quiet) (hn : n.On s.disk) (ho : ∀ i, s.OpenOn (w i).file n.hdr) :
    Settling {n} (handlesOf n w) s := by
  refine ⟨hq, ?_, fun f m hf => ?_⟩
  · rintro m rfl
    exact hn
  · rw [handlesOf] at hf
    split at hf
    · next hfile =>
      obtain rfl := Option.some.inj hf
      rcases hfile with rfl | rfl
      · exact ⟨rfl, ho false⟩
      · exact ⟨rfl, ho true⟩
    · cases hf

theorem between_start (hn : n.On s.disk) : BetweenOn n w (fun _ => false) [] s.disk := by
  refine ⟨fun b hb => .inl ?_, fun _ h => Bool.noConfusion h⟩
  rw [n.size] at hb
  rw [← hn.content, List.getElem?_take, if_pos hb]

/-- In every interleaving, both writes are in the file in the end. -/
theorem both_written (hq : s.Quiet) (hn : n.On s.disk) (ho : ∀ i, s.OpenOn (w i).file n.hdr)
    (hin : ∀ i, (w i).pos + (w i).src.length ≤ n.length)
    (hdis : Disjoint (w false).range (w true).range) (hw : NothingToLose n.content w)
    (hr : Config.Run Kernel.exec (fun _ _ _ => True) ⟨fun i => (w i).run, s, []⟩ c)
    (hf : ∀ i, c.Finished i) :
    (blocks c.state.disk n.data).take n.length.toNat = bothWritten n.content w := by
  have hM := separate_singleton n
  have hsize := n.size
  have hroom := n.room
  have hin' : ∀ i, (w i).pos + (w i).src.length ≤ n.content.length := fun i => by
    have := hin i
    omega
  have hI := (settling_handlesOf hq hn ho).tied (ι := Bool) (e := fun _ => false) hM
    (between_start (w := w) hn)
  have hsafe : ∀ i, Safe Kernel.exec
      (discipline hM.files s.names (BetweenOn n w) fun _ _ _ => True) i (w i).run
      (fun _ g => g.hold = .nothing ∧ (g.ext = true ∨ (w i).src.length = 0))
      ⟨.nothing, .start {n} (handlesOf n w), false⟩ := by
    intro i
    rw [← WriteCall.translate_client]
    refine safe_client (Q := fun _ e => e = true ∨ (w i).src.length = 0)
      (g := ⟨.nothing, .start {n} (handlesOf n w), false⟩) hM steadfast_between ?_ rfl rfl ?_ ?_
    · exact ⟨n, handlesOf_file n w i, Int.natCast_nonneg _, hin i, fun _ => trivial⟩
    · exact fun f m hf => ((settling_handlesOf hq hn ho).handle f m hf).1
    · intro m hm
      obtain rfl := Option.some.inj (hm.symm.trans (handlesOf_file n w i))
      rw [writePhases]
      split
      · next hz => exact .inr hz
      · next hz =>
        exact (phased_write hw hin' hdis (Nat.pos_of_ne_zero hz)).mono fun _ _ h => .inl h
  obtain ⟨G, hG, hS⟩ := Safe.sound (c := ⟨fun i => (w i).run, s, []⟩) hI hsafe hr
  obtain ⟨S, hset, hB⟩ := hG.settled
  have hret : ∀ i, (G i).hold = .nothing ∧ ((G i).ext = true ∨ (w i).src.length = 0) := fun i => by
    obtain ⟨a, ha⟩ := hf i
    have h := hS i
    rw [ha] at h
    exact h
  rw [← hset.eq_of_nothing fun i => (hret i).1]
  refine List.ext_getElem? fun b => ?_
  by_cases hb : b < n.length.toNat
  · rw [List.getElem?_take, if_pos hb]
    by_cases hmem : ∃ i, b ∈ (w i).range
    · obtain ⟨i, hi⟩ := hmem
      refine hB.done i ((hret i).2.resolve_right ?_) b hi
      rw [WriteCall.mem_range] at hi
      omega
    · rcases hB.bytes b (by omega) with h | h
      · rw [h, bothWritten_of_not_mem hin' fun i hi => hmem ⟨i, hi⟩]
      · exact h
  · rw [List.getElem?_eq_none (by rw [List.length_take, length_blocks]; omega),
      List.getElem?_eq_none (by rw [length_bothWritten hin']; omega)]

/-! ## Where something can be lost -/

theorem reach_store (hq : s.Quiet) (hn : n.On s.disk) {u : WriteCall} (ho : s.OpenOn u.file n.hdr)
    (hk : 0 < u.src.length) (hp : u.pos + u.src.length ≤ n.length) :
    u.run.Reach Kernel.exec (fun q s' => ∃ buf, q = OpenFile.store u.file u.src u.pos buf ∧
      Fetched s s' u.file n.hdr ∧ n.Filled s.disk u.pos u.src buf) s := by
  obtain ⟨s₁, hs₁, -, -, hwp⟩ := enterWrite_fetched hq hn.holds ho
  rw [WriteCall.run, OpenFile.writeAt_eq]
  refine .bind ((hwp _).mpr ?_)
  rw [if_neg (by omega), makeRoom_inPlace hp, pure_bind, if_pos rfl, OpenFile.writeRange_eq]
  rw [← hs₁.disk] at hn
  refine .bind (wp_fillBuffer (hs₁.quiet hq) hn.holds (hs₁.openOn ho) (hs₁.disk ▸ hs₁.header) hk hp ?_)
  intro buf s₂ hs₂ hbuf
  exact .here ⟨buf, rfl, hs₁.trans hs₂, hs₁.disk ▸ hbuf⟩

theorem FileNode.Filled.getElem? {d : Nat → Sector} {p b : Nat} {src buf : List Byte}
    (h : n.Filled d p src buf) (hk : 0 < src.length) (hp : p + src.length ≤ n.length)
    (hb : b < n.length.toNat) (hblock : p / 128 ≤ b / 128 ∧ b / 128 ≤ (p + src.length - 1) / 128) :
    buf[b - 128 * (p / 128)]? = (splice n.content p src)[b]? := by
  have hroom := n.room
  have hlen := h.length
  rw [← h.bytes, List.getElem?_take, if_pos hb, getElem?_splice, if_pos (by omega)]
  rw [length_blocks]
  omega

/-- What a call inside the file leaves in place for another one that has filled its buffer. -/
structure Stored (n : FileNode) (s s' : Kernel) : Prop where
  quiet : s'.Quiet
  tables : n.Tables s'.disk
  lists : ∀ f, n.Lists (s.files f).hdr → n.Lists (s'.files f).hdr

theorem wp_run_stored (hq : s.Quiet) (hn : n.On s.disk) {u : WriteCall}
    (ho : s.OpenOn u.file n.hdr) (hk : 0 < u.src.length) (hp : u.pos + u.src.length ≤ n.length) :
    Wp u.run (fun _ => Stored n s) s := by
  refine wp_writeAt_stores hq hn.holds ho hk hp fun buf s₁ hs₁ _ => ⟨?_, ?_, fun f hf => ?_⟩
  · exact (hs₁.toSteady.trans (.disk ..)).quiet hq
  · refine hn.tables.congr fun x hx => writeBlocks_of_not_mem fun hm => ?_
    exact n.index_not_mem_data hx (mem_data_of_mem_under hm)
  · change n.Lists (s₁.files f).hdr
    by_cases he : f = u.file
    · rw [he]
      exact hn.lists.congr hs₁.header
    · rwa [hs₁.others f he]

/-- One call fills its buffer, the other one runs, and the first one stores: a byte of the second
one, in a block that both write to, is as it was. -/
theorem exists_lost (hq : s.Quiet) (hn : n.On s.disk) (ho : ∀ i, s.OpenOn (w i).file n.hdr)
    (hin : ∀ i, (w i).pos + (w i).src.length ≤ n.length)
    (hdis : Disjoint (w false).range (w true).range) {b : Nat} (hb : b ∈ (w i).range)
    (hshare : ∃ b' ∈ (w !i).range, b' / 128 = b / 128) :
    ∃ c, Config.Run Kernel.exec (fun _ _ _ => True) ⟨fun i => (w i).run, s, []⟩ c ∧
      (∀ i, c.Finished i) ∧
      ((blocks c.state.disk n.data).take n.length.toNat)[b]? = n.content[b]? := by
  obtain ⟨b', hb', hblock⟩ := hshare
  have hroom := n.room
  have hsize := n.size
  have hp := hin i
  have hp' := hin !i
  have hne : i ≠ !i := (Bool.not_ne_self i).symm
  have hout : b ∉ (w !i).range := by
    cases i with
    | false => exact Set.disjoint_left.mp hdis hb
    | true => exact Set.disjoint_right.mp hdis hb
  rw [WriteCall.mem_range] at hb hb' hout
  -- `!i` fills its buffer
  obtain ⟨c₁, hr₁, ⟨buf, hq₁, hs₁, hbuf⟩, hp₁⟩ := Config.run_of_reach (i := !i)
    (c := ⟨fun i => (w i).run, s, []⟩) (reach_store hq hn (ho !i) (by omega) hp')
  have hprog : c₁.prog i = (w i).run := hp₁ i hne
  have hn₁ : n.On c₁.state.disk := hs₁.disk ▸ hn
  -- `i` runs to its end
  have hreach := reach_of_wp (wp_run_stored (hs₁.quiet hq) hn₁ (hs₁.openOn (ho i)) (by omega) hp)
  rw [← hprog] at hreach
  obtain ⟨c₂, hr₂, ⟨a, ha, hs₂⟩, hp₂⟩ := Config.run_of_reach hreach
  have hq₂ : c₂.prog (!i) = OpenFile.store (w !i).file (w !i).src (w !i).pos buf :=
    (hp₂ _ hne.symm).trans hq₁
  -- `!i` stores
  have hwp : Wp (OpenFile.store (w !i).file (w !i).src (w !i).pos buf) (fun _ s' => s'.disk =
      writeBlocks c₂.state.disk (n.under (w !i).pos (w !i).src.length) buf) c₂.state :=
    (wp_store hs₂.quiet (hs₂.lists _ (hn.lists.congr hs₁.header)) hs₂.tables (by omega)
      (by omega)).mpr rfl
  have hreach := reach_of_wp hwp
  rw [← hq₂] at hreach
  obtain ⟨c₃, hr₃, ⟨r, hr, hdisk⟩, hp₃⟩ := Config.run_of_reach hreach
  refine ⟨c₃, (hr₁.trans hr₂).trans hr₃, fun j => ?_, ?_⟩
  · by_cases hj : j = i
    · subst hj
      exact ⟨a, (hp₃ j hne).trans ha⟩
    · rw [Bool.eq_not_of_ne hj]
      exact ⟨r, hr⟩
  · have hlen := hbuf.length
    rw [hdisk, FileNode.under, blocks_writeBlocks n.data_nodup (by omega) hlen, List.getElem?_take,
      if_pos (by omega), getElem?_splice (by rw [length_blocks]; omega), if_pos (by omega),
      hbuf.getElem? (by omega) hp' (by omega) (by omega), getElem?_splice (by omega), if_neg hout]

/-- Two threads write inside one file, to ranges that do not overlap. Whatever the interleaving,
both ranges are replaced, if and only if there is nothing to lose in a block that they share. -/
theorem writes_kept_iff (hq : s.Quiet) (hn : n.On s.disk) (ho : ∀ i, s.OpenOn (w i).file n.hdr)
    (hin : ∀ i, (w i).pos + (w i).src.length ≤ n.length)
    (hdis : Disjoint (w false).range (w true).range) :
    (∀ c, Config.Run Kernel.exec (fun _ _ _ => True) ⟨fun i => (w i).run, s, []⟩ c →
      (∀ i, c.Finished i) →
      (blocks c.state.disk n.data).take n.length.toNat = bothWritten n.content w) ↔
    NothingToLose n.content w := by
  constructor
  · intro h i b hb hshare
    obtain ⟨c, hr, hf, hlost⟩ := exists_lost hq hn ho hin hdis hb hshare
    have hsize := n.size
    rw [← hlost, h c hr hf, bothWritten_of_mem (fun j => ?_) hdis hb]
    have := hin j
    omega
  · intro hw c hr hf
    exact both_written hq hn ho hin hdis hw hr hf

end inPlace

def neighbours : Bool → WriteCall
  | false => ⟨0, [7], 127⟩
  | true => ⟨1, [8], 128⟩

theorem writes_kept_iff_neighbours : NothingToLose smallFile.content neighbours ∧
    ∀ c, Config.Run Kernel.exec (fun _ _ _ => True) ⟨fun i => (neighbours i).run, withSmallFile, []⟩
      c → (∀ i, c.Finished i) →
      (blocks c.state.disk smallFile.data).take smallFile.length.toNat =
        bothWritten smallFile.content neighbours := by
  have hfree : NothingToLose smallFile.content neighbours := by
    rintro i b hb ⟨b', hb', he⟩
    cases i with
    | false =>
      obtain rfl := WriteCall.mem_range_one.mp hb
      obtain rfl := WriteCall.mem_range_one.mp hb'
      cases he
    | true =>
      obtain rfl := WriteCall.mem_range_one.mp hb
      obtain rfl := WriteCall.mem_range_one.mp hb'
      cases he
  refine ⟨hfree, (writes_kept_iff ⟨fun _ _ => rfl, rfl⟩ smallFile_on ?_ ?_ ?_).mpr hfree⟩
  · intro i
    cases i with
    | false => exact ⟨by decide, rfl⟩
    | true => exact ⟨by decide, rfl⟩
  · decide
  · refine Set.disjoint_left.mpr fun b hb hb' => ?_
    cases (WriteCall.mem_range_one.mp hb).symm.trans (WriteCall.mem_range_one.mp hb')

def sameSector : Bool → WriteCall
  | false => ⟨0, [7], 0⟩
  | true => ⟨1, [8], 1⟩

theorem sameSector_lost :
    ∃ c, Config.Run Kernel.exec (fun _ _ _ => True)
        ⟨fun i => (sameSector i).run, withSmallFile, []⟩ c ∧ (∀ i, c.Finished i) ∧
      (blocks c.state.disk smallFile.data).take smallFile.length.toNat ≠
        bothWritten smallFile.content sameSector := by
  have ho : ∀ i, withSmallFile.OpenOn (sameSector i).file smallFile.hdr := by
    intro i
    cases i with
    | false => exact ⟨by decide, rfl⟩
    | true => exact ⟨by decide, rfl⟩
  have hdis : Disjoint (sameSector false).range (sameSector true).range := by
    refine Set.disjoint_left.mpr fun b hb hb' => ?_
    cases (WriteCall.mem_range_one.mp hb).symm.trans (WriteCall.mem_range_one.mp hb')
  obtain ⟨c, hr, hf, hlost⟩ := exists_lost (i := false) (b := 0) ⟨fun _ _ => rfl, rfl⟩ smallFile_on
    ho (by decide) hdis ⟨by decide, by decide⟩ ⟨1, ⟨by decide, by decide⟩, rfl⟩
  refine ⟨c, hr, hf, fun h => ?_⟩
  rw [h] at hlost
  revert hlost
  decide +kernel

end Nachos
