import Nachos.Machine.Loader

/-! Threads that share the machine. All of them use one backing file, in which a page is found by
its number alone, and the frames that they get hold what the thread before left there. A thread
that meets neither reads what its own program and its own writes determine. -/

namespace Nachos
open Lib

/-- The byte of a file as a page fault shows it in a frame of zeros. -/
def BackingFile.shown (f : BackingFile) (p : Nat) : Byte := (f.stored p).getD 0

/-- What a thread with this memory reads when nobody else is there. -/
def replay (image : Nat → Byte) (accesses : List Access) : List (Access × Option Word) :=
  accesses.foldl (fun log a => log ++ [(a, a.result
    (fun p => (lastWritten log p.toNat).getD (image p.toNat)) a.addr.toNat)]) []

theorem replay_concat (image : Nat → Byte) (accesses : List Access) (a : Access) :
    replay image (accesses ++ [a]) = replay image accesses ++ [(a, a.result
      (fun p => (lastWritten (replay image accesses) p.toNat).getD (image p.toNat))
        a.addr.toNat)] := by
  rw [replay, List.foldl_append]
  rfl

theorem replay_mono (image : Nat → Byte) {as bs : List Access} (h : as <+: bs) :
    replay image as <+: replay image bs := by
  obtain ⟨cs, rfl⟩ := h
  induction cs using List.reverseRecOn with
  | nil => simp
  | append_singleton cs c ih =>
    rw [← List.append_assoc, replay_concat]
    exact ih.trans (List.prefix_append ..)

theorem Consistent.eq_replay {base : Nat → Option Byte} {image : Nat → Byte}
    {log : List (Access × Option Word)} (h : Consistent (expected base) log)
    (hlog : ∀ x ∈ log, Memory.misaligned x.1.addr x.1.size = false ∧ x.1.addr.toNat < 2147483648 ∧
      ∀ p, p / 128 = x.1.vpn → base p = some (image p)) :
    log = replay image (log.map Prod.fst) := by
  induction log using List.reverseRecOn with
  | nil => rfl
  | append_singleton log x ih =>
    obtain ⟨a, v⟩ := x
    have hlog' := ih (fun before b w hp => h before b w (hp.trans (List.prefix_append ..)))
      fun y hy => hlog y (List.mem_append_left _ hy)
    obtain ⟨ha, hlt, hbase⟩ := hlog (a, v) (List.mem_append_right _ (List.mem_singleton_self _))
    obtain ⟨g, hg, rfl⟩ := h log a v List.prefix_rfl
    have hpage : a.addr.toNat % 128 + a.size.bytes ≤ 128 := Memory.bytes_le_page ha
    replace hlt : a.addr.toNat < 2147483648 := hlt
    rw [List.map_append, List.map_singleton, replay_concat, ← hlog']
    refine congrArg (fun r => log ++ [(a, r)]) (Memory.result_congr fun k hk => ?_)
    have hk' : ((a.addr.toNat : Int) + k) = ((a.addr.toNat + k : Nat) : Int) := by push_cast; rfl
    rw [hk', Int.toNat_natCast]
    refine hg _ _ ?_
    rw [expected]
    cases hw : lastWritten log (a.addr.toNat + k) with
    | none => exact hbase _ (by simp only [Access.vpn]; omega)
    | some b => exact if_pos (by omega)

namespace Memory

/-- The constructors of `AddrSpace` for programs that are started one after the other. -/
def loadAll (m : Memory) : List ((Int → Byte) × BackingFile) → Option Memory
  | [] => some m
  | (stack, executable) :: rest =>
    (m.addrSpace stack executable).bind fun (_, m) => m.loadAll rest

theorem loadedFrom_loadAll {m m' : Memory} {programs : List ((Int → Byte) × BackingFile)}
    (h : m.loadAll programs = some m') : m'.LoadedFrom m := by
  induction programs generalizing m with
  | nil =>
    cases h
    exact ⟨rfl, rfl, fun p hp => ⟨hp, rfl⟩⟩
  | cons program rest ih =>
    obtain ⟨stack, executable⟩ := program
    obtain ⟨⟨numPages, m₁⟩, hl, h⟩ := Option.bind_eq_some_iff.mp h
    exact (ih h).trans (loadedFrom_addrSpace hl)

end Memory

/-- The image of a program: the file after the program was loaded alone. -/
def imageOf (program : (Int → Byte) × BackingFile) : Option BackingFile :=
  (Memory.zero.addrSpace program.1 program.2).map fun r => r.2.disk

/-- Programs that are loaded into a machine without mapped pages, and run in some order. -/
structure Session where
  memory : Memory
  unmapped : ∀ i, memory.pageTable i = .initial
  programs : List ((Int → Byte) × BackingFile)
  todo : Int → List Access
  schedule : List (Int × Int)

namespace Session

def start (s : Session) : Option Users := (s.memory.loadAll s.programs).map fun m => .start m s.todo

def finish (s : Session) : Option Users := s.start.bind fun u => History.run Users.step u s.schedule

def pages (s : Session) (tid : Int) : List Nat := (s.todo tid).map Access.vpn

end Session

/-- The next step is no page fault, or else it leaves the pages of the thread in the file alone and,
if it is a page fault of the thread itself, it gets zeros where the file has ended. -/
def Users.Undisturbed (tid : Int) (pages : List Nat) (u : Users) : Int × Int → Prop
  | (t, _) => ∀ a rest, u.todo t = a :: rest → u.memory.Faults t a →
      (u.memory.firstUnused = none → ∀ w ∈ pages,
        (u.memory.pageTable u.memory.oldest).virtualPage = (w : Nat) →
        (u.memory.pageTable u.memory.oldest).tid = tid) ∧
      (t = tid → u.memory.Clean (fun _ => True) a)

/-- A thread that shares its pages with nobody: after loading, the file shows the image of its
program there, and no page fault disturbs it. -/
structure Session.Separate (s : Session) (tid : Int) (program : (Int → Byte) × BackingFile)
    (image : BackingFile) : Prop where
  loaded : program ∈ s.programs
  isImage : imageOf program = some image
  low : ∀ a ∈ s.todo tid, a.addr.toNat < 2147483648
  shown : ∀ u, s.start = some u → ∀ p, p / 128 ∈ s.pages tid →
    u.memory.disk.shown p = image.shown p ∧
    (u.memory.disk.length ≤ p → u.memory.disk.byte p = 0)
  undisturbed : ∀ u, s.start = some u →
    History.Meets Users.step (Users.Undisturbed tid (s.pages tid)) u s.schedule

namespace Session.Separate
variable {s : Session} {tid : Int} {program : (Int → Byte) × BackingFile} {image : BackingFile}
  {u : Users}

def base (pages : List Nat) (tid : Int) (image : BackingFile) (t : Int) (p : Nat) : Option Byte :=
  if t = tid ∧ p / 128 ∈ pages then some (image.shown p) else none

theorem base_self {pages : List Nat} {p : Nat} (hp : p / 128 ∈ pages) :
    base pages tid image tid p = some (image.shown p) := if_pos ⟨rfl, hp⟩

theorem of_base {pages : List Nat} {t : Int} {p : Nat} (hb : base pages tid image t p ≠ none) :
    t = tid ∧ p / 128 ∈ pages := by
  by_contra hn
  exact hb (if_neg hn)

theorem right_start (h : s.Separate tid program image) (hs : s.start = some u) :
    u.Right (fun t v => t = tid ∧ v ∈ s.pages tid) (base (s.pages tid) tid image) := by
  have hshown := h.shown u hs
  obtain ⟨m, hm, rfl⟩ := Option.map_eq_some_iff.mp hs
  have hfrom := Memory.loadedFrom_loadAll hm
  refine Users.right_start _ (fun i => (congrFun hfrom.pageTable i).trans (s.unmapped i))
    (fun t v hT o ho b hb => ?_) fun t p hb hp => (hshown p (of_base hb).2).2 hp
  obtain ⟨rfl, hv⟩ := hT
  have hv' : (v * 128 + o) / 128 ∈ s.pages t := by rwa [show (v * 128 + o) / 128 = v by omega]
  rw [base_self hv', ← (hshown _ hv').1, BackingFile.shown] at hb
  cases hst : m.disk.stored (v * 128 + o) with
  | none =>
    simp only [Users.start, hst] at hb
    refine .inr ⟨hst, (Option.some.inj hb).symm, ?_⟩
    rw [base_self hv']
    exact Option.some_ne_none _
  | some c =>
    simp only [Users.start, hst] at hb
    exact .inl (hst.trans hb)

theorem harmless {pages : List Nat} {e : Int × Int} (h : u.Undisturbed tid pages e) :
    u.Harmless (fun t v => t = tid ∧ v ∈ pages) (base pages tid image) e := by
  obtain ⟨t, now⟩ := e
  intro a rest ht hf
  obtain ⟨hp, hc⟩ := h a rest ht hf
  refine ⟨?_, fun o ho hfr hn => hc (of_base hfr).1 o ho trivial hn⟩
  rintro hn t' w ⟨rfl, hw⟩ he
  exact (hp hn w hw he).symm

theorem base_high {pages : List Nat} {t : Int} {p : Nat} {b : Byte} (hp : 2147483648 ≤ p)
    (hb : base pages tid image t p = some b) : b = 0 := by
  rw [base] at hb
  split at hb
  · rw [BackingFile.shown, BackingFile.stored, if_neg (by omega)] at hb
    exact (Option.some.inj hb).symm
  · cases hb

theorem right_finish (h : s.Separate tid program image) (hs : s.finish = some u) :
    u.Right (fun t v => t = tid ∧ v ∈ s.pages tid) (base (s.pages tid) tid image) := by
  obtain ⟨u₀, h₀, hr⟩ := Option.bind_eq_some_iff.mp hs
  have ha := (h.undisturbed u₀ h₀).always (fun _ => id)
    (fun u e u' (hi : u.Right _ _) hs' he => hi.step (fun t p b => base_high) hs' (harmless he))
    (h.right_start h₀)
  exact ha.run hr

/-- What the thread reads is determined by its image and its own accesses. -/
theorem log_eq_replay (h : s.Separate tid program image) (hs : s.finish = some u) :
    (u.log tid).map Prod.fst <+: s.todo tid ∧
      u.log tid = replay image.shown ((u.log tid).map Prod.fst) := by
  have hright := h.right_finish hs
  obtain ⟨u₀, h₀, hr⟩ := Option.bind_eq_some_iff.mp hs
  obtain ⟨m, -, rfl⟩ := Option.map_eq_some_iff.mp h₀
  have hacc : (u.log tid).map Prod.fst ++ u.todo tid = s.todo tid :=
    @History.run_keeps _ _ Users.step _ _ _
      (fun v => (v.log tid).map Prod.fst ++ v.todo tid = s.todo tid)
      (fun v e v' hv he => (Users.step_accesses he tid).trans hv) rfl hr
  have hpre : (u.log tid).map Prod.fst <+: s.todo tid := ⟨_, hacc⟩
  have htodo : ∀ x ∈ u.log tid, x.1 ∈ s.todo tid := fun x hx =>
    hpre.subset (List.mem_map_of_mem hx)
  have hpages : ∀ x ∈ u.log tid, x.1.vpn ∈ s.pages tid := fun x hx =>
    List.mem_map_of_mem (htodo x hx)
  refine ⟨hpre, (hright.results tid fun x hx => ⟨rfl, hpages x hx⟩).eq_replay fun x hx =>
    ⟨hright.aligned tid x hx, h.low x.1 (htodo x hx), fun p hp => base_self ?_⟩⟩
  rw [hp]
  exact hpages x hx

end Session.Separate

/-- Two sessions in which a thread has the same program and the same accesses, and shares its pages
with nobody: whatever the others do, it reads the same values, as far as it gets. -/
theorem reads_isolated (s s' : Session) (tid : Int) (program : (Int → Byte) × BackingFile)
    (image : BackingFile) (h : s.Separate tid program image) (h' : s'.Separate tid program image)
    (htodo : s.todo tid = s'.todo tid) (u u' : Users) (hu : s.finish = some u)
    (hu' : s'.finish = some u') : u.log tid <+: u'.log tid ∨ u'.log tid <+: u.log tid := by
  obtain ⟨hp, hl⟩ := h.log_eq_replay hu
  obtain ⟨hp', hl'⟩ := h'.log_eq_replay hu'
  rw [htodo] at hp
  rw [hl, hl']
  exact (List.prefix_or_prefix_of_prefix hp hp').imp (replay_mono _) (replay_mono _)

/-- Threads 0 and 1 run the empty program, and thread 1 has been served before thread 0. -/
def Session.ofTwo (todo₀ todo₁ : List Access) (steps₀ steps₁ : Nat) : Session where
  memory := .zero
  unmapped _ := rfl
  programs := [(fun _ => 0, emptyProgram), (fun _ => 0, emptyProgram)]
  todo t := if t = 0 then todo₀ else todo₁
  schedule := List.replicate steps₁ (1, 0) ++ List.replicate steps₀ (0, 0)

theorem Session.start_ofTwo (todo₀ todo₁ : List Access) (steps₀ steps₁ : Nat) :
    (ofTwo todo₀ todo₁ steps₀ steps₁).start =
      some (.start .zero fun t => if t = 0 then todo₀ else todo₁) := by
  simp only [start, ofTwo, Memory.loadAll, addrSpace_emptyProgram, Option.bind_some,
    Option.map_some]

theorem imageOf_emptyProgram : imageOf (fun _ => 0, emptyProgram) = some ⟨0, fun _ => 0⟩ := by
  rw [imageOf, addrSpace_emptyProgram]
  rfl

theorem separate_writing :
    (Session.ofTwo [.read 0 .word] [.write 0 .word 7] 2 2).Separate 0 (fun _ => 0, emptyProgram)
      ⟨0, fun _ => 0⟩ where
  loaded := List.mem_cons_self ..
  isImage := imageOf_emptyProgram
  low := by decide
  shown u hu p _ := by
    rw [Session.start_ofTwo] at hu
    cases hu
    exact ⟨rfl, fun _ => rfl⟩
  undisturbed u hu := by
    rw [Session.start_ofTwo] at hu
    cases hu
    refine fun u₁ h₁ => ⟨?_, fun u₂ h₂ => ⟨?_, fun u₃ h₃ => ⟨?_, fun u₄ h₄ => ⟨?_, trivial⟩⟩⟩⟩
    · exact fun a rest _ _ => ⟨fun hn => absurd hn (by decide +kernel), fun ht => by cases ht⟩
    · cases h₁
      exact fun a rest _ _ => ⟨fun hn => absurd hn (by decide +kernel), fun ht => by cases ht⟩
    · cases h₁
      cases h₂
      intro a rest ht _
      cases ht
      refine ⟨fun hn => absurd hn (by decide +kernel), fun _ o ho _ _ => ?_⟩
      revert o
      decide +kernel
    · -- the page of thread 0 is there now
      cases h₁
      cases h₂
      cases h₃
      intro a rest ht hf
      cases ht
      exact absurd (hf 1) (by decide +kernel)

theorem separate_idle :
    (Session.ofTwo [.read 0 .word] [] 2 0).Separate 0 (fun _ => 0, emptyProgram)
      ⟨0, fun _ => 0⟩ where
  loaded := List.mem_cons_self ..
  isImage := imageOf_emptyProgram
  low := by decide
  shown u hu p _ := by
    rw [Session.start_ofTwo] at hu
    cases hu
    exact ⟨rfl, fun _ => rfl⟩
  undisturbed u hu := by
    rw [Session.start_ofTwo] at hu
    cases hu
    refine fun u₁ h₁ => ⟨?_, fun u₂ h₂ => ⟨?_, trivial⟩⟩
    · exact fun a rest _ _ => ⟨fun hn => absurd hn (by decide +kernel), fun _ o _ _ _ => rfl⟩
    · cases h₁
      intro a rest ht hf
      cases ht
      exact absurd (hf 0) (by decide +kernel)

theorem reads_isolated_writing : ∃ u u',
    (Session.ofTwo [.read 0 .word] [.write 0 .word 7] 2 2).finish = some u ∧
    (Session.ofTwo [.read 0 .word] [] 2 0).finish = some u' ∧
    (u.log 0 <+: u'.log 0 ∨ u'.log 0 <+: u.log 0) := by
  obtain ⟨u, hu⟩ := Option.isSome_iff_exists.mp
    (show (Session.ofTwo [.read 0 .word] [.write 0 .word 7] 2 2).finish.isSome = true by
      rw [Session.finish, Session.start_ofTwo]
      decide +kernel)
  obtain ⟨u', hu'⟩ := Option.isSome_iff_exists.mp
    (show (Session.ofTwo [.read 0 .word] [] 2 0).finish.isSome = true by
      rw [Session.finish, Session.start_ofTwo]
      decide +kernel)
  exact ⟨u, u', hu, hu', reads_isolated _ _ 0 _ _ separate_writing separate_idle rfl u u' hu hu'⟩

/-- Thread 1 writes to all frames, and thread 0 then reads what it wrote. -/
theorem not_reads_isolated_filling : ∃ u u',
    (Session.ofTwo [.read 4096 .word] (filling 7) 2 64).finish = some u ∧
    (Session.ofTwo [.read 4096 .word] (filling 8) 2 64).finish = some u' ∧
    ¬ (u.log 0 <+: u'.log 0 ∨ u'.log 0 <+: u.log 0) := by
  have hlog : (Session.ofTwo [.read 4096 .word] (filling 7) 2 64).finish.map
      (fun u => u.log 0) = some [(.read 4096 .word, some 7)] := by
    rw [Session.finish, Session.start_ofTwo]
    decide +kernel
  have hlog' : (Session.ofTwo [.read 4096 .word] (filling 8) 2 64).finish.map
      (fun u => u.log 0) = some [(.read 4096 .word, some 8)] := by
    rw [Session.finish, Session.start_ofTwo]
    decide +kernel
  obtain ⟨u, hu, hlog⟩ := Option.map_eq_some_iff.mp hlog
  obtain ⟨u', hu', hlog'⟩ := Option.map_eq_some_iff.mp hlog'
  refine ⟨u, u', hu, hu', ?_⟩
  rw [hlog, hlog']
  decide

end Nachos
