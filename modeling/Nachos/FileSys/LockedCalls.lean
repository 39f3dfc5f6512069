import Nachos.FileSys.SectorLocks

/-! The calls of `OpenFile` under the discipline of the sector mutexes. A call behaves as its
phases do: between the moment it holds all mutexes of a transfer and the last release nothing
it reads can change and nothing it writes can be seen half done. -/

namespace Nachos
open Lib Program FileHeader

variable {ι : Type} [DecidableEq ι] {α β ε : Type}

/-! ## Phases -/

inductive PhaseOp where
  | length (n : FileNode)
  | memory (c : Nat)
  | read (xs : List Nat)
  | write (xs : List Nat) (buf : List Byte)

/-- What a call comes to: the length that the header shows, a buffer of fresh memory, and the
transfers, each of which is one step. -/
def phaseOps : Signature where
  Op := PhaseOp
  Res
    | .length _ => Int
    | .memory _ => List Byte
    | .read _ => List Byte
    | .write .. => Unit

/-- The phases of thread `i` keep `E`, whatever lengths and buffers it meets. A transfer takes
place on the settled disk when the array mutex is released. -/
def Phased (F : FileSet) (E : (ι → ε) → List (ι × Op) → (Nat → Sector) → Prop) (i : ι) :
    Program phaseOps α → (α → ε → Prop) → ε → Prop
  | .ret a, Q, e => Q a e
  | .call (.length n) k, Q, e => ∀ len, F.len n len → Phased F E i (k len) Q e
  | .call (.memory c) k, Q, e => ∀ buf : List Byte, buf.length = c → Phased F E i (k buf) Q e
  | .call (.read xs) k, Q, e => ∀ x l S, E x l S → x i = e →
    ∃ e', E (Function.update x i e') ((i, .arrV) :: l) S ∧ Phased F E i (k (blocks S xs)) Q e'
  | .call (.write xs buf) k, Q, e => ∀ x l S, E x l S → x i = e →
    ∃ e', E (Function.update x i e') ((i, .arrV) :: l) (writeBlocks S xs buf) ∧
      Phased F E i (k ()) Q e'

section phased
variable {F : FileSet} {E : (ι → ε) → List (ι × Op) → (Nat → Sector) → Prop} {i : ι} {e : ε}

theorem Phased.mono {p : Program phaseOps α} {Q R : α → ε → Prop} (h : Phased F E i p Q e)
    (hQ : ∀ a e', Q a e' → R a e') : Phased F E i p R e := by
  induction p generalizing e with
  | ret a => exact hQ a e h
  | call o k ih =>
    cases o with
    | length n => exact fun len hlen => ih len (h len hlen)
    | memory c => exact fun buf hbuf => ih buf (h buf hbuf)
    | read xs =>
      intro x l S hx hi
      obtain ⟨e', hE, hk⟩ := h x l S hx hi
      exact ⟨e', hE, ih _ hk⟩
    | write xs buf =>
      intro x l S hx hi
      obtain ⟨e', hE, hk⟩ := h x l S hx hi
      exact ⟨e', hE, ih _ hk⟩

theorem phased_bind {p : Program phaseOps α} {f : α → Program phaseOps β} {Q : β → ε → Prop} :
    Phased F E i (p >>= f) Q e ↔ Phased F E i p (fun a e' => Phased F E i (f a) Q e') e := by
  induction p generalizing e with
  | ret a => exact Iff.rfl
  | call o k ih =>
    cases o with
    | length n => exact forall_congr' fun len => imp_congr_right fun _ => ih len
    | memory c => exact forall_congr' fun buf => imp_congr_right fun _ => ih buf
    | read xs =>
      refine forall_congr' fun x => forall_congr' fun l => forall_congr' fun S =>
        imp_congr_right fun _ => imp_congr_right fun _ => exists_congr fun e' => ?_
      exact and_congr_right fun _ => ih _
    | write xs buf =>
      refine forall_congr' fun x => forall_congr' fun l => forall_congr' fun S =>
        imp_congr_right fun _ => imp_congr_right fun _ => exists_congr fun e' => ?_
      exact and_congr_right fun _ => ih _

end phased

def shownLength (n : FileNode) : Program phaseOps Int := perform (S := phaseOps) (.length n)
def newBuffer (c : Nat) : Program phaseOps (List Byte) := perform (S := phaseOps) (.memory c)
def readTogether (xs : List Nat) : Program phaseOps (List Byte) := perform (S := phaseOps) (.read xs)
def writeTogether (xs : List Nat) (buf : List Byte) : Program phaseOps Unit :=
  perform (S := phaseOps) (.write xs buf)

/-! ## One operation -/

namespace Ghost

def holding (g : Ghost ε) (h : Hold) : Ghost ε := { g with hold := h }

def seeing (g : Ghost ε) (v : View) : Ghost ε := { g with view := v }

end Ghost

section rules
variable {F : FileSet} {N : List CString}
  {E : (ι → ε) → List (ι × Op) → (Nat → Sector) → Prop} {A : List (ι × Op) → ι → Op → Prop}
  {i : ι} {g : Ghost ε} {n : FileNode} {f : Handle} {x : Nat} {xs : List Nat}

def View.fetch (v : View) (f : Handle) : View := { v with fetched := insert f v.fetched }

theorem safe_freshMemory (hE : Steadfast F E) {Q : (Nat → Word) → Ghost ε → Prop}
    (hQ : ∀ r, Q r g) : Safe Kernel.exec (discipline F N E A) i freshMemory Q g := by
  refine Safe.perform fun G l s hI hg _ => .inl ⟨s.host s.tick, _, g, rfl, ?_, hQ _⟩
  subst hg
  refine Tied.quiet hE hI trivial rfl rfl rfl rfl rfl rfl ?_
  rw [Function.update_eq_self]
  exact hI.sites.congr (fun _ _ h => h) rfl rfl

theorem safe_getFile (hE : Steadfast F E) (hk : g.view.known f = some n)
    {Q : OpenFile → Ghost ε → Prop}
    (hQ : ∀ file : OpenFile, file.hdrSectorNumber = n.hdr →
      (f ∈ g.view.fetched → F.Good n file.hdr) → Q file g) :
    Safe Kernel.exec (discipline F N E A) i (getFile f) Q g := by
  refine Safe.perform fun G l s hI hg _ => .inl ⟨s.files f, s, g, rfl, ?_, ?_⟩
  · subst hg
    refine Tied.quiet hE hI trivial rfl rfl rfl rfl rfl rfl ?_
    rw [Function.update_eq_self]
    exact hI.sites
  · subst hg
    have hfit := hI.sites.fits i
    exact hQ _ (hfit.known f n hk).2.2 (hfit.fetched f n hk)

theorem safe_setFile (hE : Steadfast F E) (hk : g.view.known f = some n) {o : OpenFile}
    (hs : o.hdrSectorNumber = n.hdr) (hgd : F.Good n o.hdr) {Q : Unit → Ghost ε → Prop}
    (hQ : Q () (g.seeing (g.view.fetch f))) :
    Safe Kernel.exec (discipline F N E A) i (setFile f o) Q g := by
  refine Safe.perform fun G l s hI hg _ => .inl ⟨(), s.setFile f o, _, rfl, ?_, hQ⟩
  subst hg
  exact Tied.quiet hE hI trivial rfl rfl rfl rfl rfl rfl (hI.sites.setFile hk hs hgd)

/-! ### Semaphores -/

theorem safe_rwP (hE : Steadfast F E) {y : Int} (hy : y = (x : Nat)) (hx : x < 1024) {h : Hold}
    (hwait : x ∉ g.hold.locked ∧ (g.hold.locked ≠ [] → g.hold.array = true))
    (hl : ∀ y, y ∈ h.locked ↔ y = x ∨ y ∈ g.hold.locked) (ha : h.array = g.hold.array)
    (hv : h.view ⊆ g.hold.view) (ht : h.todo = g.hold.todo) {Q : Unit → Ghost ε → Prop}
    (hQ : Q () (g.holding h)) : Safe Kernel.exec (discipline F N E A) i (rwP y) Q g := by
  refine Safe.perform fun G l s hI hg _ => ?_
  subst hg hy
  by_cases hm : s.mutex x = 0
  · exact .inr ⟨by simp [Kernel.exec, inRange hx, hm], hwait⟩
  · refine .inl ⟨(), s.setMutex x (s.mutex x - 1), (G i).holding h,
      by simp [Kernel.exec, inRange hx, hm], ?_, hQ⟩
    exact Tied.hold hE hI trivial rfl rfl rfl rfl rfl rfl (hI.locks.acquire hx hm hl ha)
      fun S hS => hS.keep hv ht

theorem safe_rwV (hE : Steadfast F E) {y : Int} (hy : y = (x : Nat)) (hx : x ∈ g.hold.locked)
    {h : Hold}
    (hl : ∀ y, y ∈ h.locked ↔ y ≠ x ∧ y ∈ g.hold.locked) (ha : h.array = g.hold.array)
    (hv : h.view ⊆ g.hold.view) (ht : h.todo = g.hold.todo) {Q : Unit → Ghost ε → Prop}
    (hQ : Q () (g.holding h)) : Safe Kernel.exec (discipline F N E A) i (rwV y) Q g := by
  refine Safe.perform fun G l s hI hg _ => ?_
  subst hg hy
  refine .inl ⟨(), s.setMutex x (s.mutex x + 1), (G i).holding h,
    by simp [Kernel.exec, inRange ((G i).hold.lt x hx)], ?_, hQ⟩
  exact Tied.hold hE hI trivial rfl rfl rfl rfl rfl rfl (hI.locks.release hx hl ha)
    fun S hS => hS.keep hv ht

theorem safe_arrP (hE : Steadfast F E) (hh : g.hold = .nothing) {Q : Unit → Ghost ε → Prop}
    (hQ : Q () (g.holding (.locking [] .nil (by simp)))) :
    Safe Kernel.exec (discipline F N E A) i arrP Q g := by
  refine Safe.perform fun G l s hI hg _ => ?_
  subst hg
  by_cases hm : s.arrayMutex = 0
  · refine .inr ⟨by simp [Kernel.exec, hm], ?_⟩
    change mayWait (G i).hold .arrP
    rw [hh]
    exact ⟨rfl, rfl⟩
  · refine .inl ⟨(), { s with arrayMutex := s.arrayMutex - 1 }, _,
      by simp only [Kernel.exec, if_neg hm], ?_, hQ⟩
    refine Tied.hold hE hI trivial rfl rfl rfl rfl rfl rfl
      (hI.locks.acquireArray hm (by rw [hh]; rfl) rfl) fun S hS => hS.keep (List.nil_subset _) ?_
    rw [hh]
    rfl

/-! ### Transfers -/

theorem safe_readSector {y : Int} (hE : Steadfast F E) (hy : y = (x : Nat)) (hx : x < 1024)
    (ho : ∃ n ∈ F.mem, x ∈ n.sectors) {Q : Sector → Ghost ε → Prop}
    (hQ : ∀ (G : ι → Ghost ε) l s, Tied F N E G l s → G i = g → Q (s.disk x) g) :
    Safe Kernel.exec (discipline F N E A) i (readSector y) Q g := by
  refine Safe.perform fun G l s hI hg _ => ?_
  subst hg hy
  refine .inl ⟨s.disk x, s, G i, by simp [Kernel.exec, inRange hx], ?_, hQ G l s hI rfl⟩
  obtain ⟨n, hn, hxn⟩ := ho
  refine Tied.quiet hE hI ⟨n, hn, x, hxn, rfl⟩ rfl rfl rfl rfl rfl rfl ?_
  rw [Function.update_eq_self]
  exact hI.sites

theorem safe_readHdr (hE : Steadfast F E) {y : Int} (hy : y = (n.hdr : Nat))
    (hn : n ∈ g.view.relies) (hF : n ∈ F.mem) {Q : Sector → Ghost ε → Prop}
    (hQ : ∀ d, F.Good n (ofSector d) → Q d g) :
    Safe Kernel.exec (discipline F N E A) i (readSector y) Q g := by
  refine safe_readSector hE hy n.hdr_lt ⟨n, hF, List.mem_cons_self ..⟩ fun G l s hI hg => ?_
  subst hg
  exact hQ _ ((hI.sites.fits i).shape n hn).good

theorem safe_readTable (hE : Steadfast F E) {y : Int} {t : Nat} (hy : y = (t : Nat))
    (hn : n ∈ g.view.relies) (hF : n ∈ F.mem) (ht : t ∈ n.index) {Q : Sector → Ghost ε → Prop}
    (hQ : ∀ d : Sector, (∀ j x, n.data[j]? = some x → n.index[j / 32]? = some t →
      d.word (j % 32) = .ofNat 32 x) → Q d g) :
    Safe Kernel.exec (discipline F N E A) i (readSector y) Q g := by
  refine safe_readSector hE hy (n.index_lt ht)
    ⟨n, hF, List.mem_cons_of_mem _ (List.mem_append_left _ ht)⟩ fun G l s hI hg => ?_
  subst hg
  refine hQ _ fun j x hx hj => ?_
  obtain ⟨t', ht', hw⟩ := ((hI.sites.fits i).shape n hn).tables j x hx
  obtain rfl : t' = t := Option.some.inj (ht'.symm.trans hj)
  exact hw

theorem safe_writeHdr (hE : Steadfast F E) {y : Int} (hy : y = (n.hdr : Nat)) (hF : n ∈ F.mem)
    {hdr : FileHeader} (hgd : ∀ m ∈ F.mem, n.hdr = m.hdr → F.Good m hdr)
    {Q : Unit → Ghost ε → Prop} (hQ : Q () g) :
    Safe Kernel.exec (discipline F N E A) i (hdr.writeBack y) Q g := by
  refine Safe.perform fun G l s hI hg _ => ?_
  subst hg hy
  refine .inl ⟨(), s.setDisk n.hdr hdr.toSector, G i, by simp [Kernel.exec, inRange n.hdr_lt], ?_,
    hQ⟩
  obtain ⟨S, hS, hES⟩ := hI.settled
  have hdata : n.hdr ∉ F.data := by
    rintro ⟨m, hm, hx⟩
    exact F.hdr_data n hF m hm hx
  refine Tied.step hI rfl ?_ ?_ ⟨Function.update S n.hdr hdr.toSector, ?_, ?_⟩
  · rw [Function.update_eq_self]
    exact hI.locks
  · rw [Function.update_eq_self]
    exact hI.sites.congr (fun m hm h => h.setHdr hm hF (hgd m hm)) rfl rfl
  · rw [Function.update_eq_self]
    exact hS.setDisk hdata
  · rw [Function.update_eq_self]
    refine hE _ _ S _ i _ hES ⟨n, hF, n.hdr, List.mem_cons_self .., rfl⟩ fun z hz => ?_
    exact Function.update_of_ne (hz n hF) _ _

/-! ### The phase of a transfer -/

theorem mem_iff_of_nodup_cons {x : Nat} {xs : List Nat} (h : (x :: xs).Nodup) (y : Nat) :
    y ∈ xs ↔ y ≠ x ∧ y ∈ x :: xs := by
  rw [List.mem_cons]
  constructor
  · intro hy
    exact ⟨fun he => (List.nodup_cons.mp h).1 (he ▸ hy), .inr hy⟩
  · rintro ⟨hne, rfl | hy⟩
    · exact absurd rfl hne
    · exact hy

theorem safe_arrV_read {hn : xs.Nodup} {hlt : ∀ x ∈ xs, x < 1024}
    (hh : g.hold = .locking xs hn hlt) (hT : ∀ x ∈ xs, x ∈ F.data)
    {k : List Byte → Program phaseOps α} {R : α → ε → Prop}
    (hp : Phased F E i (.call (S := phaseOps) (.read xs) k) R g.ext) {Q : Unit → Ghost ε → Prop}
    (hQ : ∀ S e, Phased F E i (k (blocks S xs)) R e → Q () ⟨.reading xs S hn hlt, g.view, e⟩) :
    Safe Kernel.exec (discipline F N E A) i arrV Q g := by
  refine Safe.perform fun G l s hI hg _ => ?_
  subst hg
  obtain ⟨S, hS, hES⟩ := hI.settled
  obtain ⟨e, hE', hk⟩ := hp _ l S hES rfl
  refine .inl ⟨(), { s with arrayMutex := s.arrayMutex + 1 }, _, rfl, ?_, hQ S e hk⟩
  have hlock : ∀ x ∈ xs, x ∈ (G i).hold.locked := fun x hx => by
    rw [hh]
    exact hx
  have htodo : (G i).hold.todo = [] := by rw [hh]; rfl
  refine Tied.step hI rfl (hI.locks.releaseArray (by rw [hh]; rfl) (by rw [hh]; rfl) rfl) ?_
    ⟨S, hS.startRead hI.locks htodo rfl ?_, hE'⟩
  · rw [Function.update_eq_self]
    exact hI.sites.congr (fun _ _ h => h) rfl rfl
  · intro p hp
    obtain ⟨x, hx, rfl⟩ := List.mem_map.mp hp
    exact ⟨hlock x hx, hS.eq_disk hI.locks (hlock x hx) (by simp [htodo]), hT x hx⟩

theorem safe_arrV_write {hn : xs.Nodup} {hlt : ∀ x ∈ xs, x < 1024}
    (hh : g.hold = .locking xs hn hlt) (hT : ∀ x ∈ xs, x ∈ F.data) {buf : List Byte}
    {k : Unit → Program phaseOps α} {R : α → ε → Prop}
    (hp : Phased F E i (.call (S := phaseOps) (.write xs buf) k) R g.ext)
    {Q : Unit → Ghost ε → Prop}
    (hQ : ∀ S e, Phased F E i (k ()) R e →
      Q () ⟨.writing xs (writeBlocks S xs buf) hn hlt, g.view, e⟩) :
    Safe Kernel.exec (discipline F N E A) i arrV Q g := by
  refine Safe.perform fun G l s hI hg _ => ?_
  subst hg
  obtain ⟨S, hS, hES⟩ := hI.settled
  obtain ⟨e, hE', hk⟩ := hp _ l S hES rfl
  refine .inl ⟨(), { s with arrayMutex := s.arrayMutex + 1 }, _, rfl, ?_, hQ S e hk⟩
  refine Tied.step hI rfl (hI.locks.releaseArray (by rw [hh]; rfl) (by rw [hh]; rfl) rfl) ?_
    ⟨writeBlocks S xs buf, hS.startWrite hI.locks ?_ (by rw [hh]; rfl) rfl ?_ ?_, hE'⟩
  · rw [Function.update_eq_self]
    exact hI.sites.congr (fun _ _ h => h) rfl rfl
  · intro p hp
    obtain ⟨x, hx, rfl⟩ := List.mem_map.mp hp
    rw [hh]
    exact hx
  · intro p hp
    obtain ⟨x, hx, rfl⟩ := List.mem_map.mp hp
    exact ⟨rfl, hT x hx⟩
  · intro x hx
    exact writeBlocks_of_not_mem fun hm => hx _ (List.mem_map_of_mem hm)

section transfer
variable {D : Nat → Sector} {hn : (x :: xs).Nodup} {hlt : ∀ y ∈ x :: xs, y < 1024}

theorem safe_readData (hE : Steadfast F E) {y : Int} (hy : y = (x : Nat))
    (hh : g.hold = .reading (x :: xs) D hn hlt) (hF : n ∈ F.mem) (hx : x ∈ n.data)
    {Q : Sector → Ghost ε → Prop} (hQ : Q (D x) g) :
    Safe Kernel.exec (discipline F N E A) i (readSector y) Q g := by
  refine safe_readSector hE hy (n.data_lt hx)
    ⟨n, hF, List.mem_cons_of_mem _ (List.mem_append_right _ hx)⟩ fun G l s hI hg => ?_
  subst hg
  obtain ⟨S, hS, -⟩ := hI.settled
  have hlock : x ∈ (G i).hold.locked := by
    rw [hh]
    exact List.mem_cons_self ..
  have hview : (x, D x) ∈ (G i).hold.view ++ (G i).hold.todo := by
    rw [hh]
    exact List.mem_cons_self ..
  have hdisk : s.disk x = D x :=
    (hS.eq_disk hI.locks hlock (by rw [hh]; exact fun _ => List.not_mem_nil)).symm.trans
      (hS.due i _ hview).1
  rw [hdisk]
  exact hQ

theorem safe_releaseRead (hE : Steadfast F E) {y : Int} (hy : y = (x : Nat))
    (hh : g.hold = .reading (x :: xs) D hn hlt) {Q : Unit → Ghost ε → Prop}
    (hQ : Q () (g.holding (.reading xs D hn.of_cons fun y hy => hlt y (List.mem_cons_of_mem _ hy)))) :
    Safe Kernel.exec (discipline F N E A) i (rwV y) Q g := by
  refine safe_rwV hE hy (by rw [hh]; exact List.mem_cons_self ..) ?_ (by rw [hh]; rfl)
    ?_ (by rw [hh]; rfl) hQ
  · intro z
    rw [hh]
    exact mem_iff_of_nodup_cons hn z
  · rw [hh]
    exact List.subset_cons_self ..

theorem safe_writeData (hE : Steadfast F E) {y : Int} (hy : y = (x : Nat))
    (hh : g.hold = .writing (x :: xs) D hn hlt) (hF : n ∈ F.mem) (hx : x ∈ n.data)
    {Q : Unit → Ghost ε → Prop} (hQ : Q () (g.holding (.wrote xs D x hn hlt))) :
    Safe Kernel.exec (discipline F N E A) i (writeSector y (D x)) Q g := by
  refine Safe.perform fun G l s hI hg _ => ?_
  subst hg hy
  refine .inl ⟨(), s.setDisk x (D x), _, by simp [Kernel.exec, inRange (n.data_lt hx)], ?_, hQ⟩
  obtain ⟨S, hS, hES⟩ := hI.settled
  refine Tied.step hI rfl (hI.locks.keep (by rw [hh]; rfl) (by rw [hh]; rfl)) ?_
    ⟨S, hS.write ?_ rfl ?_ ?_, ?_⟩
  · rw [Ghost.holding, Function.update_eq_self]
    exact hI.sites.congr (fun m hm h => h.setData hm ⟨n, hF, hx⟩) rfl rfl
  · rw [hh]
    exact List.mem_cons_self ..
  · intro p hp
    rw [hh] at hp
    exact List.mem_cons.mp hp
  · rw [hh]
    exact List.subset_cons_self ..
  · rw [Ghost.holding, Function.update_eq_self]
    exact hE _ _ S S i _ hES ⟨n, hF, x, List.mem_cons_of_mem _ (List.mem_append_right _ hx), rfl⟩
      fun _ _ => rfl

theorem safe_releaseWrote (hE : Steadfast F E) {y : Int} (hy : y = (x : Nat))
    (hh : g.hold = .wrote xs D x hn hlt) {Q : Unit → Ghost ε → Prop}
    (hQ : Q () (g.holding (.writing xs D hn.of_cons fun y hy => hlt y (List.mem_cons_of_mem _ hy)))) :
    Safe Kernel.exec (discipline F N E A) i (rwV y) Q g := by
  refine safe_rwV hE hy (by rw [hh]; exact List.mem_cons_self ..) ?_ (by rw [hh]; rfl)
    (by rw [hh]; exact List.Subset.refl _) (by rw [hh]; rfl) hQ
  intro z
  rw [hh]
  exact mem_iff_of_nodup_cons hn z

end transfer

/-! ## Parts of a call -/

structure Ghost.Opened (F : FileSet) (g : Ghost ε) (f : Handle) (n : FileNode) : Prop where
  known : g.view.known f = some n
  relies : n ∈ g.view.relies
  mem : n ∈ F.mem

theorem Ghost.Opened.holding (ho : g.Opened F f n) (h : Hold) : (g.holding h).Opened F f n :=
  ⟨ho.known, ho.relies, ho.mem⟩

theorem Ghost.Opened.fetch (ho : g.Opened F f n) : (g.seeing (g.view.fetch f)).Opened F f n :=
  ⟨ho.known, ho.relies, ho.mem⟩

theorem View.fetch_eq {v : View} (h : f ∈ v.fetched) : v.fetch f = v := by
  rw [View.fetch, Set.insert_eq_of_mem h]

theorem safe_modifyHdr (hE : Steadfast F E) (ho : g.Opened F f n) (hf : f ∈ g.view.fetched)
    {u : FileHeader → FileHeader} (hu : ∀ h, F.Good n h → F.Good n (u h))
    {Q : Unit → Ghost ε → Prop} (hQ : Q () g) :
    Safe Kernel.exec (discipline F N E A) i (modifyHdr f u) Q g := by
  refine Safe.bind (safe_getFile hE ho.known fun file hs hg => ?_)
  refine safe_setFile (o := { file with hdr := u file.hdr }) hE ho.known hs (hu _ (hg hf)) ?_
  rwa [View.fetch_eq hf]

theorem safe_fetchHeader (hE : Steadfast F E) (ho : g.Opened F f n) (hh : g.hold = .nothing)
    {Q : Unit → Ghost ε → Prop} (hQ : Q () (g.seeing (g.view.fetch f))) :
    Safe Kernel.exec (discipline F N E A) i (OpenFile.fetchHeader f) Q g := by
  simp only [OpenFile.fetchHeader, FileHeader.fetchFrom, modifyHdr, bind_assoc, pure_bind]
  refine Safe.bind (safe_getFile hE ho.known fun file hs _ => ?_)
  refine Safe.bind (safe_rwP (h := .header n.hdr n.hdr_lt) hE hs n.hdr_lt ?_ ?_ ?_ ?_ ?_ ?_)
  · rw [hh]
    exact ⟨List.not_mem_nil, fun h => absurd rfl h⟩
  · rw [hh]
    simp [Hold.header, Hold.nothing]
  · rw [hh]
    rfl
  · exact List.nil_subset _
  · rw [hh]
    rfl
  have ho' := ho.holding (.header n.hdr n.hdr_lt)
  refine Safe.bind (safe_readHdr hE hs ho'.relies ho.mem fun d hd => ?_)
  refine Safe.bind (safe_getFile hE ho'.known fun file' hs' _ => ?_)
  refine Safe.bind (safe_setFile (o := { file' with hdr := ofSector d }) hE ho'.known hs' hd ?_)
  refine safe_rwV (h := g.hold) hE hs (List.mem_singleton_self _) ?_ ?_ ?_ ?_ ?_
  · rw [hh]
    simp [Hold.header, Hold.nothing, Ghost.seeing, Ghost.holding]
  · rw [hh]
    rfl
  · rw [hh]
    exact List.nil_subset _
  · rw [hh]
    rfl
  · exact hQ

theorem safe_byteToSector (hE : Steadfast F E) (ho : g.Opened F f n) (hf : f ∈ g.view.fetched)
    {j : Nat} (hx : n.data[j]? = some x) {Q : Int → Ghost ε → Prop}
    (hQ : ∀ y : Int, y = (x : Nat) → Q y g) :
    Safe Kernel.exec (discipline F N E A) i (byteToSector f ((j : Int) * 128)) Q g := by
  have hi : j / 32 < n.index.length := by
    have hj := (List.getElem?_eq_some_iff.mp hx).1
    have := n.tables
    omega
  have hti : n.index[j / 32]? = some n.index[j / 32] := List.getElem?_eq_getElem hi
  have ht : n.index[j / 32] ∈ n.index := List.getElem_mem hi
  have he : (j * 128 : Int).tdiv 4096 = (j / 32 : Nat) := by
    rw [Int.tdiv_eq_ediv_of_nonneg (by omega)]; omega
  have hm : ((j * 128 : Int).tmod 4096).tdiv 128 = (j % 32 : Nat) := by
    rw [Int.tmod_eq_emod_of_nonneg (by omega), Int.tdiv_eq_ediv_of_nonneg (by omega)]; omega
  simp only [byteToSector, getHdr, bind_assoc, pure_bind, he, hm]
  refine Safe.bind (safe_getFile hE ho.known fun file _ hg => ?_)
  rw [(hg hf).lists _ _ hti, orFault, pure_bind]
  refine Safe.bind (safe_readTable hE (toInt_ofNat_sector (n.index_lt ht)) ho.relies ho.mem ht
    fun d hd => ?_)
  rw [Int.toNat_natCast, hd j x hx hti, toInt_ofNat_sector (n.data_lt (List.mem_of_getElem? hx)),
    assert, if_pos (decide_eq_true (Int.natCast_nonneg _)), pure_bind]
  exact hQ x rfl

theorem safe_time (hE : Steadfast F E) {Q : Word → Ghost ε → Prop} (hQ : ∀ w, Q w g) :
    Safe Kernel.exec (discipline F N E A) i time Q g :=
  Safe.bind (safe_freshMemory hE fun r => hQ (r 0))

theorem safe_newChars (hE : Steadfast F E) {c : Nat} {Q : List Byte → Ghost ε → Prop}
    (hQ : ∀ buf, buf.length = c → Q buf g) :
    Safe Kernel.exec (discipline F N E A) i (newChars c) Q g := by
  simp only [newChars, assert, if_pos (decide_eq_true (Int.natCast_nonneg c)), pure_bind,
    Int.toNat_natCast]
  exact Safe.bind (safe_freshMemory hE fun r => hQ _ (length_newChars r c))

section loops
variable {js : List Nat}

theorem safe_lockLoop (hE : Steadfast F E) (ho : g.Opened F f n) (hf : f ∈ g.view.fetched)
    (hb : BlocksAt n js xs) {L : List Nat} {hn : L.Nodup} {hlt : ∀ x ∈ L, x < 1024}
    (hh : g.hold = .locking L hn hlt) (hn' : (L ++ xs).Nodup)
    (hlt' : ∀ x ∈ L ++ xs, x < 1024) {Q : Unit → Ghost ε → Prop}
    (hQ : Q () (g.holding (.locking (L ++ xs) hn' hlt'))) :
    Safe Kernel.exec (discipline F N E A) i
      (forM (js.map fun j : Nat => (j : Int)) fun i => do rwP (← byteToSector f (i * 128))) Q g := by
  induction hb generalizing g L with
  | nil =>
    have hL : L ++ [] = L := List.append_nil L
    simp only [hL] at hQ
    rwa [← hh] at hQ
  | @cons j x js xs hj hb ih =>
    have hassoc : L ++ x :: xs = L ++ [x] ++ xs := by simp
    have hxL : x ∉ L := fun h => (List.nodup_append'.mp hn').2.2 h (List.mem_cons_self ..)
    have hnx : (L ++ [x]).Nodup := by
      rw [hassoc] at hn'
      exact (List.nodup_append'.mp hn').1
    have hltx : ∀ y ∈ L ++ [x], y < 1024 := fun y hy => hlt' y (by
      rw [hassoc]
      exact List.mem_append_left _ hy)
    simp only [List.map_cons, List.forM_cons, bind_assoc]
    refine Safe.bind (safe_byteToSector hE ho hf hj fun y hy => ?_)
    refine Safe.bind (safe_rwP (h := .locking (L ++ [x]) hnx hltx) hE hy
      (n.data_lt (List.mem_of_getElem? hj)) ?_ ?_ ?_ ?_ ?_ ?_)
    · rw [hh]
      exact ⟨hxL, fun _ => rfl⟩
    · rw [hh]
      simp [Hold.locking, or_comm]
    · rw [hh]
      rfl
    · exact List.nil_subset _
    · rw [hh]
      rfl
    · refine ih (ho.holding _) hf rfl (hassoc ▸ hn') (hassoc ▸ hlt') ?_
      simp only [hassoc] at hQ
      exact hQ

theorem safe_lockSectors (hE : Steadfast F E) (ho : g.Opened F f n) (hf : f ∈ g.view.fetched)
    (hh : g.hold = .nothing) (hb : BlocksAt n js xs) (hn : xs.Nodup) (hlt : ∀ x ∈ xs, x < 1024)
    {Q : Unit → Ghost ε → Prop}
    (hV : Safe Kernel.exec (discipline F N E A) i arrV Q (g.holding (.locking xs hn hlt))) :
    Safe Kernel.exec (discipline F N E A) i
      (OpenFile.lockSectors f (js.map fun j : Nat => (j : Int))) Q g := by
  refine Safe.bind (safe_arrP hE hh ?_)
  exact Safe.bind (safe_lockLoop (g := g.holding (.locking [] .nil (by simp))) hE (ho.holding _) hf
    hb rfl hn hlt hV)

theorem safe_readSectors (hE : Steadfast F E) (ho : g.Opened F f n) (hf : f ∈ g.view.fetched)
    (hb : BlocksAt n js xs) {D : Nat → Sector} {hn : xs.Nodup} {hlt : ∀ x ∈ xs, x < 1024}
    (hh : g.hold = .reading xs D hn hlt) {Q : List Byte → Ghost ε → Prop}
    (hQ : Q (blocks D xs) (g.holding .nothing)) :
    Safe Kernel.exec (discipline F N E A) i
      (OpenFile.readSectors f (js.map fun j : Nat => (j : Int))) Q g := by
  induction hb generalizing g Q with
  | nil =>
    have hg : g.holding .nothing = g := by
      rw [Ghost.holding, show Hold.nothing = g.hold from hh.symm]
    rwa [hg] at hQ
  | @cons j x js xs hj hb ih =>
    have hx : x ∈ n.data := List.mem_of_getElem? hj
    simp only [List.map_cons, OpenFile.readSectors]
    refine Safe.bind (safe_byteToSector hE ho hf hj fun y hy => ?_)
    refine Safe.bind (safe_readData hE hy hh ho.mem hx ?_)
    refine Safe.bind (safe_byteToSector hE ho hf hj fun y hy => ?_)
    refine Safe.bind (safe_releaseRead hE hy hh ?_)
    exact Safe.bind (ih (g := g.holding (.reading xs D _ _)) (ho.holding _) hf rfl hQ)

theorem safe_writeSectors (hE : Steadfast F E) (ho : g.Opened F f n) (hf : f ∈ g.view.fetched)
    (hb : BlocksAt n js xs) {D : Nat → Sector} {hn : xs.Nodup} {hlt : ∀ x ∈ xs, x < 1024}
    (hh : g.hold = .writing xs D hn hlt) {buf : List Byte}
    (hD : ∀ (k : Nat) x, xs[k]? = some x → D x = .ofBytes ((buf.drop (128 * k)).take 128))
    {Q : Unit → Ghost ε → Prop} (hQ : Q () (g.holding .nothing)) :
    Safe Kernel.exec (discipline F N E A) i
      (OpenFile.writeSectors f (js.map fun j : Nat => (j : Int)) buf) Q g := by
  induction hb generalizing g buf with
  | nil =>
    have hg : g.holding .nothing = g := by
      rw [Ghost.holding, show Hold.nothing = g.hold from hh.symm]
    rwa [hg] at hQ
  | @cons j x js xs hj hb ih =>
    have hx : x ∈ n.data := List.mem_of_getElem? hj
    have hDx : D x = .ofBytes (buf.take 128) := hD 0 x rfl
    simp only [List.map_cons, OpenFile.writeSectors, ← hDx]
    refine Safe.bind (safe_byteToSector hE ho hf hj fun y hy => ?_)
    refine Safe.bind (safe_writeData hE hy hh ho.mem hx ?_)
    refine Safe.bind (safe_byteToSector (g := g.holding (.wrote xs D x hn hlt)) hE (ho.holding _) hf
      hj fun y hy => ?_)
    refine Safe.bind (safe_releaseWrote hE hy rfl ?_)
    refine ih (g := g.holding (.writing xs D _ _)) (ho.holding _) hf rfl (fun k z hz => ?_) hQ
    rw [hD (k + 1) z hz, List.drop_drop]
    congr 3
    omega

end loops

/-! ## The calls -/

def readPhase (n : FileNode) (p k : Nat) : Program phaseOps (List Byte) := do
  let bytes ← readTogether (n.under p k)
  return (bytes.drop (p % 128)).take k

def readPhases (n : FileNode) (num : Int) (p : Nat) : Program phaseOps (List Byte) := do
  let len ← shownLength n
  if num ≤ 0 ∨ p ≥ len then return [] else readPhase n p (min num (len - p)).toNat

theorem safe_readRange (hE : Steadfast F E) (ho : g.Opened F f n) (hf : f ∈ g.view.fetched)
    (hh : g.hold = .nothing) {p k : Nat} (hk : 0 < k) (hp : p + k ≤ 128 * n.data.length)
    {R : List Byte → ε → Prop} (hR : Phased F E i (readPhase n p k) R g.ext)
    {Q : List Byte → Ghost ε → Prop}
    (hQ : ∀ bs e, bs.length ≤ k → R bs e → Q bs ⟨.nothing, g.view, e⟩) :
    Safe Kernel.exec (discipline F N E A) i (OpenFile.readRange f k p) Q g := by
  have hd := n.data_length_le
  have hb := blocksAt_under hk hp
  have hT : ∀ x ∈ n.under p k, x ∈ F.data := fun x hx => ⟨n, ho.mem, hb.mem_data hx⟩
  have hlt : ∀ x ∈ n.under p k, x < 1024 := fun x hx => n.data_lt (hb.mem_data hx)
  simp only [OpenFile.readRange, divRoundDown_natCast, lastSector_eq hk (by omega : p + k ≤ 102400),
    sectorRange_blocksOf hk, bufLength_eq hk (by omega : p + k ≤ 102400)]
  refine Safe.bind (safe_lockSectors hE ho hf hh hb (under_nodup n p k) hlt (safe_arrV_read
    (g := g.holding (.locking (n.under p k) (under_nodup n p k) hlt)) rfl hT hR fun S e hS => ?_))
  refine Safe.bind (safe_newChars hE fun buf hbuf => ?_)
  have ho' : Ghost.Opened F ⟨.reading (n.under p k) S (under_nodup n p k) hlt, g.view, e⟩ f n :=
    ⟨ho.known, ho.relies, ho.mem⟩
  refine Safe.bind (safe_readSectors hE ho' hf hb rfl ?_)
  have hlen := length_blocks_under (d := S) hk hp
  have hout : copyOut (blocks S (n.under p k) ++ buf.drop (blocks S (n.under p k)).length)
      ((p : Int) - ((p / 128 : Nat) : Int) * 128) k =
      some (((blocks S (n.under p k)).drop (p % 128)).take k) := by
    rw [List.drop_of_length_le (by rw [hbuf, hlen]), List.append_nil, copyOut,
      if_pos (by rw [hlen]; omega)]
    congr 3
    omega
  rw [hout]
  exact hQ _ e (List.length_take_le ..) hS

theorem FileSet.Good.visited {hdr : FileHeader} (h : F.Good n hdr) (w : Word) :
    F.Good n { hdr with lastVisitTime := w } := ⟨h.lists, h.length⟩

theorem FileSet.Good.written {hdr : FileHeader} (h : F.Good n hdr) (w : Word) :
    F.Good n { hdr with lastWriteTime := w } := ⟨h.lists, h.length⟩

theorem safe_readAt (hE : Steadfast F E) (ho : g.Opened F f n) (hh : g.hold = .nothing)
    {num : Int} {p : Nat} (hr : num + p < 2147483648)
    (hroom : ∀ len, F.len n len → min (p + num) len ≤ 128 * n.data.length)
    {R : List Byte → ε → Prop} (hR : Phased F E i (readPhases n num p) R g.ext)
    {Q : List Byte → Ghost ε → Prop}
    (hQ : ∀ bs e, bs.length ≤ num.toNat → R bs e → Q bs ⟨.nothing, g.view.fetch f, e⟩) :
    Safe Kernel.exec (discipline F N E A) i (OpenFile.readAt f num p) Q g := by
  have hf : f ∈ (g.view.fetch f).fetched := .inl rfl
  refine Safe.bind (safe_fetchHeader hE ho hh ?_)
  refine Safe.bind (safe_time hE fun now => ?_)
  refine Safe.bind (safe_modifyHdr hE ho.fetch hf (fun h hg => hg.visited now) ?_)
  simp only [getHdr, bind_assoc, pure_bind]
  refine Safe.bind (safe_getFile hE ho.fetch.known fun file _ hg => ?_)
  have hlen : F.len n file.hdr.fileLength := (hg hf).length
  have hbound := word_range file.hdr.numBytes
  have hp : Phased F E i (if num ≤ 0 ∨ p ≥ file.hdr.fileLength then pure []
      else readPhase n p (min num (file.hdr.fileLength - p)).toNat) R g.ext := hR _ hlen
  have hroom := hroom _ hlen
  change _ ≤ file.hdr.fileLength ∧ file.hdr.fileLength < _ at hbound
  generalize file.hdr.fileLength = len at hp hroom hbound ⊢
  split
  · next hc =>
    rw [if_pos hc] at hp
    have hg : (g.seeing (g.view.fetch f)) = ⟨.nothing, g.view.fetch f, g.ext⟩ := by
      rw [Ghost.seeing, hh]
    rw [hg]
    exact hQ [] g.ext (Nat.zero_le _) hp
  · next hc =>
    rw [if_neg hc] at hp
    have hnum : (if int32 (p + num) > len then int32 (len - p) else num) =
        ((min num (len - p)).toNat : Nat) := by
      rw [int32_of_range (by omega) (by omega), int32_of_range (by omega) (by omega)]
      split <;> omega
    simp only [hnum]
    exact safe_readRange hE ho.fetch hf hh (by omega) (by omega) hp fun bs e hl =>
      hQ bs e (by omega)

/-- A sector that is written in part comes into the buffer. -/
def fillPhases (n : FileNode) (needed : Bool) (buf : List Byte) (o j : Nat) :
    Program phaseOps (List Byte) :=
  if needed then do return splice buf o (← readPhases n 128 (128 * j)) else pure buf

/-- A write that is not empty: the sectors that it covers in part are read in by phases of
their own. -/
def writePhase (n : FileNode) (src : List Byte) (p : Nat) : Program phaseOps Int := do
  let a := p / 128
  let b := (p + src.length - 1) / 128
  let buf ← newBuffer (128 * (b + 1 - a))
  let buf ← fillPhases n (p ≠ 128 * a) buf 0 a
  let buf ← fillPhases n (p + src.length ≠ 128 * (b + 1) ∧ (a ≠ b ∨ p = 128 * a)) buf
    (128 * (b - a)) b
  writeTogether (n.under p src.length) (splice buf (p - 128 * a) src)
  return src.length

def writePhases (n : FileNode) (src : List Byte) (p : Nat) : Program phaseOps Int :=
  if src.length = 0 then return 0 else writePhase n src p

theorem safe_readPartial (hE : Steadfast F E) (ho : g.Opened F f n) (hf : f ∈ g.view.fetched)
    (hh : g.hold = .nothing) {needed : Bool} {buf : List Byte} {o j : Nat}
    (hoff : o + 128 ≤ buf.length) (hj : j < n.data.length) {R : List Byte → ε → Prop}
    (hR : Phased F E i (fillPhases n needed buf o j) R g.ext) {Q : List Byte → Ghost ε → Prop}
    (hQ : ∀ bs e, bs.length = buf.length → R bs e → Q bs ⟨.nothing, g.view, e⟩) :
    Safe Kernel.exec (discipline F N E A) i (OpenFile.readPartial f needed buf o j) Q g := by
  cases needed with
  | false =>
    have hg : g = ⟨.nothing, g.view, g.ext⟩ := by rw [← hh]
    rw [hg]
    exact hQ buf g.ext rfl hR
  | true =>
    have hd := n.data_length_le
    have hpos : (j : Int) * 128 = (128 * j : Nat) := by omega
    simp only [OpenFile.readPartial, if_true, hpos]
    refine Safe.bind (safe_readAt hE ho hh (by omega) (fun _ _ => by omega)
      (phased_bind.mp hR) fun bs e hl hbs => ?_)
    have hcopy : copyInto buf o bs = some (splice buf o bs) := by
      rw [copyInto, if_pos ⟨by omega, by omega⟩]
      rfl
    rw [hcopy, View.fetch_eq hf]
    exact hQ _ e (length_splice (by omega)) hbs

theorem safe_writeRange (hE : Steadfast F E) (ho : g.Opened F f n) (hf : f ∈ g.view.fetched)
    (hh : g.hold = .nothing) {src : List Byte} {p : Nat} (hk : 0 < src.length)
    (hp : p + src.length ≤ 128 * n.data.length) {R : Int → ε → Prop}
    (hR : Phased F E i (writePhase n src p) R g.ext) {Q : Int → Ghost ε → Prop}
    (hQ : ∀ e, R src.length e → Q src.length ⟨.nothing, g.view, e⟩) :
    Safe Kernel.exec (discipline F N E A) i (OpenFile.writeRange f src p) Q g := by
  have hd := n.data_length_le
  have hpk : p + src.length ≤ 102400 := by omega
  have hb := blocksAt_under hk hp
  have hT : ∀ x ∈ n.under p src.length, x ∈ F.data := fun x hx => ⟨n, ho.mem, hb.mem_data hx⟩
  have hlt : ∀ x ∈ n.under p src.length, x < 1024 := fun x hx => n.data_lt (hb.mem_data hx)
  simp only [OpenFile.writeRange, divRoundDown_natCast, lastSector_eq hk hpk,
    sectorRange_blocksOf hk, bufLength_eq hk hpk, firstPartial_eq, lastPartial_eq hpk,
    lastOffset_eq hk]
  refine Safe.bind (safe_newChars hE fun buf hbuf => ?_)
  have hR' := hR buf hbuf
  refine Safe.bind (safe_readPartial hE ho hf hh (o := 0) (by omega) (by omega)
    (phased_bind.mp hR') fun buf₁ e₁ hl₁ hR₁ => ?_)
  have ho₁ : Ghost.Opened F ⟨.nothing, g.view, e₁⟩ f n := ⟨ho.known, ho.relies, ho.mem⟩
  refine Safe.bind (safe_readPartial hE ho₁ hf rfl (by omega) (by omega)
    (phased_bind.mp hR₁) fun buf₂ e₂ hl₂ hR₂ => ?_)
  have ho₂ : Ghost.Opened F ⟨.nothing, g.view, e₂⟩ f n := ⟨ho.known, ho.relies, ho.mem⟩
  rw [copyInto_sector (by omega), orFault, pure_bind]
  refine Safe.bind (safe_lockSectors hE ho₂ hf rfl hb (under_nodup n p _) hlt (safe_arrV_write
    (g := ⟨.locking (n.under p src.length) (under_nodup n p _) hlt, g.view, e₂⟩) rfl hT hR₂
    fun S e hS => ?_))
  have ho₃ : Ghost.Opened F ⟨.writing (n.under p src.length) (writeBlocks S (n.under p src.length)
      (splice buf₂ (p - 128 * (p / 128)) src)) (under_nodup n p _) hlt, g.view, e⟩ f n :=
    ⟨ho.known, ho.relies, ho.mem⟩
  refine Safe.bind (safe_writeSectors hE ho₃ hf hb rfl
    (fun k x hx => writeBlocks_getElem? (under_nodup n p _) hx) ?_)
  exact hQ e hS

theorem safe_writeAt (hE : Steadfast F E) (ho : g.Opened F f n) (hh : g.hold = .nothing)
    {src : List Byte} {p : Nat} (hp : p + src.length ≤ 128 * n.data.length)
    (hlen : ∀ len, F.len n len → ((p + src.length : Nat) : Int) ≤ len) {R : Int → ε → Prop}
    (hR : Phased F E i (writePhases n src p) R g.ext) {Q : Int → Ghost ε → Prop}
    (hQ : ∀ e, R src.length e → Q src.length ⟨.nothing, g.view.fetch f, e⟩) :
    Safe Kernel.exec (discipline F N E A) i (OpenFile.writeAt f src p) Q g := by
  have hf : f ∈ (g.view.fetch f).fetched := .inl rfl
  have hd := n.data_length_le
  refine Safe.bind (safe_fetchHeader hE ho hh ?_)
  refine Safe.bind (safe_time hE fun now => ?_)
  refine Safe.bind (safe_modifyHdr hE ho.fetch hf (fun h hg => hg.visited now) ?_)
  refine Safe.bind (safe_time hE fun now => ?_)
  refine Safe.bind (safe_modifyHdr hE ho.fetch hf (fun h hg => hg.written now) ?_)
  simp only [getHdr, bind_assoc, pure_bind]
  refine Safe.bind (safe_getFile hE ho.fetch.known fun file _ hg => ?_)
  rw [writePhases] at hR
  split at hR
  · next hz =>
    rw [if_pos (by omega)]
    have hg' : (g.seeing (g.view.fetch f)) = ⟨.nothing, g.view.fetch f, g.ext⟩ := by
      rw [Ghost.seeing, hh]
    rw [hg']
    rw [hz] at hQ
    exact hQ g.ext hR
  have hk : 0 < src.length := by omega
  have hle := hlen _ (hg hf).length
  have hroom : ¬ int32 (p + src.length) > file.hdr.fileLength := by
    rw [int32_of_range (by omega) (by omega), FileHeader.fileLength]
    omega
  rw [if_neg (by omega), OpenFile.makeRoom, if_neg hroom, pure_bind, if_pos rfl]
  exact safe_writeRange hE ho.fetch hf hh hk hp hR hQ

/-! ### The constructor -/

theorem safe_newFile (hE : Steadfast F E) {Q : Handle → Ghost ε → Prop}
    (hQ : ∀ f file, Q f (g.seeing (g.view.owning f file))) :
    Safe Kernel.exec (discipline F N E A) i newFile Q g := by
  refine Safe.perform fun G l s hI hg _ =>
    .inl ⟨s.nextFile, { s with nextFile := s.nextFile + 1 }, _, rfl, ?_, hQ _ (s.files s.nextFile)⟩
  subst hg
  exact Tied.quiet hE hI trivial rfl rfl rfl rfl rfl rfl hI.sites.newFile

theorem safe_publish (hE : Steadfast F E) {old o : OpenFile} (hown : g.view.own f = some old)
    (hn : n ∈ g.view.relies) (hs : o.hdrSectorNumber = n.hdr) (hgd : F.Good n o.hdr)
    {Q : Unit → Ghost ε → Prop} (hQ : Q () (g.seeing (g.view.publish f n))) :
    Safe Kernel.exec (discipline F N E A) i (setFile f o) Q g := by
  refine Safe.perform fun G l s hI hg _ => .inl ⟨(), s.setFile f o, _, rfl, ?_, hQ⟩
  subst hg
  have hset : Sites F (Function.update (fun i => (G i).view) i ((G i).view.owning f o))
      (s.setFile f o) := hI.sites.setOwn hown
  have hV := hset.publish (i := i) (by rw [Function.update_self, View.owning_own_self])
    (by rw [Function.update_self]; exact hn) hs hgd
  rw [Function.update_self, Function.update_idem, View.owning_publish] at hV
  exact Tied.quiet hE hI trivial rfl rfl rfl rfl rfl rfl hV

theorem safe_new (hE : Steadfast F E) {y : Int} (hy : y = (n.hdr : Nat)) (hh : g.hold = .nothing)
    (hn : n ∈ g.view.relies) (hF : n ∈ F.mem) (huniq : ∀ m ∈ F.mem, n.hdr = m.hdr → m = n)
    {Q : Handle → Ghost ε → Prop} (hQ : ∀ f, Q f (g.seeing (g.view.publish f n))) :
    Safe Kernel.exec (discipline F N E A) i (OpenFile.new y) Q g := by
  simp only [OpenFile.new, FileHeader.fetchFrom, bind_assoc, pure_bind]
  refine Safe.bind (safe_newFile hE fun f file => ?_)
  have hg : g = ⟨.nothing, g.view, g.ext⟩ := by rw [← hh]
  rw [hg] at hQ ⊢
  refine Safe.bind (safe_rwP (h := .header n.hdr n.hdr_lt) hE hy n.hdr_lt
    ⟨List.not_mem_nil, fun h => absurd rfl h⟩ (fun z => ?_) rfl (List.nil_subset _) rfl ?_)
  · simp [Hold.header, Hold.nothing, Ghost.seeing]
  refine Safe.bind (safe_readHdr hE hy ?_ hF fun d hd => ?_)
  · exact hn
  refine Safe.bind (safe_time hE fun now => ?_)
  refine Safe.bind (safe_writeHdr hE hy hF (fun m hm he => ?_) ?_)
  · rw [huniq m hm he]
    exact hd.visited now
  refine Safe.bind (safe_rwV (h := .nothing) hE hy (List.mem_singleton_self _) (fun z => ?_) rfl
    (List.nil_subset _) rfl ?_)
  · simp [Hold.header, Hold.nothing, Ghost.seeing, Ghost.holding]
  refine Safe.bind (safe_publish (g := ⟨.nothing, g.view.owning f file, g.ext⟩) hE
    View.owning_own_self hn hy (hd.visited now) ?_)
  rw [View.owning_publish]
  exact hQ f

end rules
end Nachos
