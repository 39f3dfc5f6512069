import Nachos.FileSys.FileNode

/-! The loops of `ReadAt` and `WriteAt` that lock and transfer sectors, run by one thread. -/

namespace Nachos
open Lib Program FileHeader

/-! ## States between calls -/

/-- No semaphore of `SynchDisk` is taken. -/
structure Kernel.Quiet (s : Kernel) : Prop where
  mutex : ∀ x < 1024, s.mutex x = 1
  arrayMutex : s.arrayMutex = 1

theorem Kernel.quiet_zeroed : Kernel.zeroed.Quiet := ⟨fun _ _ => rfl, rfl⟩

/-- `f` is an `OpenFile` object on the header in sector `h`. -/
def Kernel.OpenOn (s : Kernel) (f : Handle) (h : Nat) : Prop :=
  f < s.nextFile ∧ (s.files f).hdrSectorNumber = h

/-- From `s` to `s'` every `OpenFile` object stayed on its header, and the semaphores are back
where they were; objects may have been added. -/
structure Kept (s s' : Kernel) : Prop where
  mutex : s'.mutex = s.mutex
  arrayMutex : s'.arrayMutex = s.arrayMutex
  host : s'.host = s.host
  nextFile : s.nextFile ≤ s'.nextFile
  sector : ∀ f < s.nextFile, (s'.files f).hdrSectorNumber = (s.files f).hdrSectorNumber
  seek : ∀ f < s.nextFile, (s'.files f).seekPosition = (s.files f).seekPosition

namespace Kept
variable {s s' s'' : Kernel}

theorem refl (s : Kernel) : Kept s s := ⟨rfl, rfl, rfl, le_rfl, fun _ _ => rfl, fun _ _ => rfl⟩

theorem trans (h : Kept s s') (h' : Kept s' s'') : Kept s s'' where
  mutex := h'.mutex.trans h.mutex
  arrayMutex := h'.arrayMutex.trans h.arrayMutex
  host := h'.host.trans h.host
  nextFile := h.nextFile.trans h'.nextFile
  sector f hf := (h'.sector f (hf.trans_le h.nextFile)).trans (h.sector f hf)
  seek f hf := (h'.seek f (hf.trans_le h.nextFile)).trans (h.seek f hf)

theorem quiet (h : Kept s s') (hq : s.Quiet) : s'.Quiet :=
  ⟨fun x hx => by rw [h.mutex]; exact hq.mutex x hx, by rw [h.arrayMutex]; exact hq.arrayMutex⟩

theorem openOn {f : Handle} {x : Nat} (h : Kept s s') (ho : s.OpenOn f x) : s'.OpenOn f x :=
  ⟨ho.1.trans_le h.nextFile, (h.sector f ho.1).trans ho.2⟩

end Kept

/-- The names on the heap stayed, too: what may have changed is the disk, the header copies in
`OpenFile` objects, and what the host has supplied. -/
structure Steady (s s' : Kernel) : Prop extends Kept s s' where
  names : s'.names = s.names

namespace Steady
variable {s s' s'' : Kernel}

theorem refl (s : Kernel) : Steady s s := ⟨.refl s, rfl⟩

theorem trans (h : Steady s s') (h' : Steady s' s'') : Steady s s'' :=
  ⟨h.toKept.trans h'.toKept, h'.names.trans h.names⟩

theorem tick (s : Kernel) (t : Nat) : Steady s { s with tick := t } :=
  ⟨⟨rfl, rfl, rfl, le_rfl, fun _ _ => rfl, fun _ _ => rfl⟩, rfl⟩

theorem setDisk (s : Kernel) (x : Nat) (d : Sector) : Steady s (s.setDisk x d) :=
  ⟨⟨rfl, rfl, rfl, le_rfl, fun _ _ => rfl, fun _ _ => rfl⟩, rfl⟩

theorem disk (s : Kernel) (d : Nat → Sector) : Steady s { s with disk := d } :=
  ⟨⟨rfl, rfl, rfl, le_rfl, fun _ _ => rfl, fun _ _ => rfl⟩, rfl⟩

theorem setHdr (s : Kernel) (f : Handle) (hdr : FileHeader) :
    Steady s (s.setFile f { s.files f with hdr }) where
  mutex := rfl
  arrayMutex := rfl
  host := rfl
  names := rfl
  nextFile := le_rfl
  sector g _ := by
    by_cases hg : g = f
    · subst hg; simp
    · simp [Function.update_of_ne hg]
  seek g _ := by
    by_cases hg : g = f
    · subst hg; simp
    · simp [Function.update_of_ne hg]

end Steady

def Kernel.lock (s : Kernel) (xs : List Nat) : Kernel :=
  { s with mutex := fun y => if y ∈ xs then 0 else s.mutex y }

section sequential
variable {s : Kernel} {n : FileNode} {f : Handle} {j x : Nat} {js xs : List Nat}

theorem Kernel.lock_nil : s.lock [] = s := by simp [Kernel.lock]

theorem lock_setMutex {L : List Nat} (hm : s.mutex x = 1) (hx : x ∉ L) :
    (s.lock L).setMutex x ((s.lock L).mutex x - 1) = s.lock (L ++ [x]) := by
  simp only [Kernel.lock, Kernel.setMutex, hx, if_false, hm]
  congr 1
  funext y
  by_cases hy : y = x
  · subst hy; simp
  · simp [hy]

theorem unlock_setMutex (hm : s.mutex x = 1) (hx : x ∉ xs) :
    (s.lock (x :: xs)).setMutex x ((s.lock (x :: xs)).mutex x + 1) = s.lock xs := by
  simp only [Kernel.lock, Kernel.setMutex]
  congr 1
  funext y
  by_cases hy : y = x
  · subst hy; simp [hx, hm]
  · simp [hy]

theorem wp_byteToSector_offset {index data : List Nat} {off : Nat} (hlt : ∀ t ∈ index, t < 1024)
    (hl : ∀ (i : Nat) t, index[i]? = some t → (s.files f).hdr.entry i = some (.ofNat 32 t))
    (ht : Leads s.disk index data) (hx : data[off / 128]? = some x) (hxl : x < 1024)
    {Q : Int → Kernel → Prop} :
    Wp (byteToSector f off) Q s ↔ Q x s := by
  obtain ⟨t, hti, htw⟩ := ht (off / 128) x hx
  have htl : t < 1024 := hlt t (List.mem_of_getElem? hti)
  have he : (off : Int).tdiv 4096 = (off / 128 / 32 : Nat) := by
    rw [Int.tdiv_eq_ediv_of_nonneg (by omega)]; omega
  have hi : ((off : Int).tmod 4096).tdiv 128 = (off / 128 % 32 : Nat) := by
    rw [Int.tmod_eq_emod_of_nonneg (by omega), Int.tdiv_eq_ediv_of_nonneg (by omega)]; omega
  have hpos : decide (0 ≤ ((off / 128 % 32 : Nat) : Int)) = true :=
    decide_eq_true (Int.natCast_nonneg _)
  simp only [byteToSector, getHdr, wp_then, wp_getFile, wp_pure, he, hl _ t hti,
    wp_orFault_some, toInt_ofNat_sector htl, wp_readSector htl, hi, wp_assert hpos,
    Int.toNat_natCast, htw, toInt_ofNat_sector hxl]

theorem wp_byteToSector_of {index data : List Nat} (hlt : ∀ t ∈ index, t < 1024)
    (hl : ∀ (i : Nat) t, index[i]? = some t → (s.files f).hdr.entry i = some (.ofNat 32 t))
    (ht : Leads s.disk index data) (hx : data[j]? = some x) (hxl : x < 1024)
    {Q : Int → Kernel → Prop} :
    Wp (byteToSector f ((j : Int) * 128)) Q s ↔ Q x s := by
  rw [← Nat.mul_div_cancel j (show 0 < 128 by decide)] at hx
  exact wp_byteToSector_offset hlt hl ht hx hxl

theorem wp_byteToSector (hl : n.Lists (s.files f).hdr) (ht : n.Tables s.disk)
    (hx : n.data[j]? = some x) {Q : Int → Kernel → Prop} :
    Wp (byteToSector f ((j : Int) * 128)) Q s ↔ Q x s :=
  wp_byteToSector_of (fun _ h => n.index_lt h) hl ht hx (n.data_lt (List.mem_of_getElem? hx))

theorem wp_fetchHeader (hf : (s.files f).hdrSectorNumber = x) (hx : x < 1024)
    (hm : s.mutex x ≠ 0) {Q : Unit → Kernel → Prop} :
    Wp (OpenFile.fetchHeader f) Q s ↔
      Q () (s.setFile f { s.files f with hdr := hdrAt s.disk x }) := by
  have hmm : Function.update (Function.update s.mutex x (s.mutex x - 1)) x
      (s.mutex x - 1 + 1) = s.mutex := by
    rw [Function.update_idem, Nat.sub_add_cancel (Nat.pos_of_ne_zero hm), Function.update_eq_self]
  simp only [OpenFile.fetchHeader, FileHeader.fetchFrom, modifyHdr, wp_then, wp_getFile, hf,
    wp_rwP hx hm, wp_readSector hx, wp_pure, wp_setFile, wp_rwV hx]
  simp only [Kernel.setMutex, Kernel.setFile, Function.update_self, hmm, hdrAt, hf]

def BlocksAt (n : FileNode) (js xs : List Nat) : Prop :=
  List.Forall₂ (fun j x => n.data[j]? = some x) js xs

theorem BlocksAt.mem_data (h : BlocksAt n js xs) (hx : x ∈ xs) : x ∈ n.data := by
  induction h with
  | nil => simp at hx
  | cons hj _ ih =>
    rcases List.mem_cons.mp hx with rfl | hx
    · exact List.mem_of_getElem? hj
    · exact ih hx

theorem blocksAt_range {a c : Nat} (h : a + c ≤ n.data.length) :
    BlocksAt n (List.range' a c) ((n.data.drop a).take c) := by
  induction c generalizing a with
  | zero =>
    rw [List.take_zero]
    exact .nil
  | succ c ih =>
    have ha : a < n.data.length := by omega
    rw [List.range'_succ, List.drop_eq_getElem_cons ha, List.take_succ_cons]
    exact .cons (List.getElem?_eq_getElem ha) (ih (by omega))

theorem sectorRange_eq {a b : Nat} (h : a ≤ b + 1) :
    sectorRange a b = (List.range' a (b + 1 - a)).map fun j : Nat => (j : Int) := by
  have hc : ((b : Int) - a + 1).toNat = b + 1 - a := by omega
  rw [sectorRange, hc, List.range'_eq_map_range, List.map_map]
  exact List.map_congr_left fun k _ => by simp

theorem wp_lockLoop (hl : n.Lists (s.files f).hdr) (ht : n.Tables s.disk) (hb : BlocksAt n js xs)
    (hm : ∀ x ∈ xs, s.mutex x = 1) {L : List Nat} (hn : (L ++ xs).Nodup)
    {Q : Unit → Kernel → Prop} :
    Wp (forM (js.map fun j : Nat => (j : Int)) fun i => do rwP (← byteToSector f (i * 128))) Q
      (s.lock L) ↔ Q () (s.lock (L ++ xs)) := by
  induction hb generalizing L with
  | nil => simp only [List.map_nil, List.forM_nil, wp_pure, List.append_nil]
  | @cons j x js xs hj hb ih =>
    have hxL : x ∉ L := fun h => (List.nodup_append'.mp hn).2.2 h (List.mem_cons_self ..)
    have hx := hm x (List.mem_cons_self ..)
    have hlk : (s.lock L).mutex x ≠ 0 := by simp [Kernel.lock, hxL, hx]
    simp only [List.map_cons, List.forM_cons, wp_then]
    rw [wp_byteToSector (s := s.lock L) hl ht hj, wp_rwP (n.data_lt (List.mem_of_getElem? hj)) hlk,
      lock_setMutex hx hxL, ih (fun y hy => hm y (List.mem_cons_of_mem _ hy)) (by simpa using hn)]
    simp

theorem nodup_of_wp_lockLoop {index data : List Nat} {Q : Unit → Kernel → Prop}
    (hb : List.Forall₂ (fun j x => data[j]? = some x) js xs)
    (h : Wp (forM (js.map fun j : Nat => (j : Int)) fun i => do
      rwP (← byteToSector f (i * 128))) Q s)
    (hlt : ∀ t ∈ index, t < 1024)
    (hl : ∀ (i : Nat) t, index[i]? = some t → (s.files f).hdr.entry i = some (.ofNat 32 t))
    (ht : Leads s.disk index data) (hd : ∀ x ∈ data, x < 1024) (hm : ∀ x < 1024, s.mutex x ≤ 1) :
    xs.Nodup ∧ ∀ x ∈ xs, s.mutex x ≠ 0 := by
  induction hb generalizing s with
  | nil => simp
  | @cons j x js xs hj hb ih =>
    have hx : x < 1024 := hd x (List.mem_of_getElem? hj)
    simp only [List.map_cons, List.forM_cons, wp_then] at h
    rw [wp_byteToSector_of hlt hl ht hj hx] at h
    have hx₀ : s.mutex x ≠ 0 := fun h₀ => not_wp_rwP hx h₀ h
    rw [wp_rwP hx hx₀] at h
    have hx₁ : s.mutex x - 1 = 0 := by have := hm x hx; omega
    rw [hx₁] at h
    have hm' : ∀ y < 1024, (s.setMutex x 0).mutex y ≤ 1 := fun y hy => by
      rw [Kernel.setMutex_mutex]
      rcases eq_or_ne y x with rfl | hyx
      · simp
      · rw [Function.update_of_ne hyx]
        exact hm y hy
    obtain ⟨hn, hxs⟩ := ih h hl ht hm'
    have hne : ∀ y ∈ xs, y ≠ x := by
      rintro y hy rfl
      exact hxs y hy (Function.update_self ..)
    refine ⟨List.nodup_cons.mpr ⟨fun hx => hne x hx rfl, hn⟩, fun y hy => ?_⟩
    rcases List.mem_cons.mp hy with rfl | hy
    · exact hx₀
    · have hy₀ := hxs y hy
      rwa [Kernel.setMutex_mutex, Function.update_of_ne (hne y hy)] at hy₀

theorem wp_lockSectors (hq : s.Quiet) (hl : n.Lists (s.files f).hdr) (ht : n.Tables s.disk)
    (hb : BlocksAt n js xs) (hn : xs.Nodup) {Q : Unit → Kernel → Prop} :
    Wp (OpenFile.lockSectors f (js.map fun j : Nat => (j : Int))) Q s ↔ Q () (s.lock xs) := by
  have ha : s.arrayMutex ≠ 0 := by rw [hq.arrayMutex]; omega
  have hm : ∀ x ∈ xs, s.mutex x = 1 := fun x hx => hq.mutex x (n.data_lt (hb.mem_data hx))
  have hloop := wp_lockLoop (s := { s with arrayMutex := s.arrayMutex - 1 }) hl ht hb hm
    (L := []) (by simpa using hn)
    (Q := fun _ s' => Q () { s' with arrayMutex := s'.arrayMutex + 1 })
  simp only [OpenFile.lockSectors, wp_then]
  rw [wp_arrP ha]
  simp only [wp_arrV]
  rw [Kernel.lock_nil] at hloop
  rw [hloop]
  simp [Kernel.lock, hq.arrayMutex]

theorem wp_readSectors (hl : n.Lists (s.files f).hdr) (ht : n.Tables s.disk)
    (hb : BlocksAt n js xs) (hm : ∀ x ∈ xs, s.mutex x = 1) (hn : xs.Nodup)
    {Q : List Byte → Kernel → Prop} :
    Wp (OpenFile.readSectors f (js.map fun j : Nat => (j : Int))) Q (s.lock xs) ↔
      Q (blocks s.disk xs) s := by
  induction hb generalizing Q with
  | nil => simp [OpenFile.readSectors, Kernel.lock_nil, wp_pure]
  | @cons j x js xs hj hb ih =>
    obtain ⟨hx, hxs⟩ := List.nodup_cons.mp hn
    have hxl : x < 1024 := n.data_lt (List.mem_of_getElem? hj)
    simp only [List.map_cons, OpenFile.readSectors, wp_then]
    rw [wp_byteToSector (s := s.lock (x :: xs)) hl ht hj, wp_readSector hxl,
      wp_byteToSector (s := s.lock (x :: xs)) hl ht hj, wp_rwV hxl,
      unlock_setMutex (hm x (List.mem_cons_self ..)) hx,
      ih (fun y hy => hm y (List.mem_cons_of_mem _ hy)) hxs, wp_pure]
    simp [Kernel.lock]

theorem wp_writeSectors (hl : n.Lists (s.files f).hdr) (ht : n.Tables s.disk)
    (hb : BlocksAt n js xs) (hm : ∀ x ∈ xs, s.mutex x = 1) (hn : xs.Nodup) {buf : List Byte}
    {Q : Unit → Kernel → Prop} :
    Wp (OpenFile.writeSectors f (js.map fun j : Nat => (j : Int)) buf) Q (s.lock xs) ↔
      Q () { s with disk := writeBlocks s.disk xs buf } := by
  induction hb generalizing s buf with
  | nil => simp [OpenFile.writeSectors, Kernel.lock_nil, writeBlocks, wp_pure]
  | @cons j x js xs hj hb ih =>
    obtain ⟨hx, hxs⟩ := List.nodup_cons.mp hn
    have hxd : x ∈ n.data := List.mem_of_getElem? hj
    have hxl : x < 1024 := n.data_lt hxd
    have ht' : n.Tables (s.setDisk x (.ofBytes (buf.take 128))).disk :=
      ht.congr fun t hti => Function.update_of_ne
        (fun h : t = x => n.index_not_mem_data hti (h ▸ hxd)) _ _
    have hu : ((s.lock (x :: xs)).setDisk x (.ofBytes (buf.take 128))).setMutex x
        (((s.lock (x :: xs)).setDisk x (.ofBytes (buf.take 128))).mutex x + 1) =
        (s.setDisk x (.ofBytes (buf.take 128))).lock xs :=
      unlock_setMutex (s := s.setDisk x (.ofBytes (buf.take 128))) (hm x (List.mem_cons_self ..)) hx
    simp only [List.map_cons, OpenFile.writeSectors, wp_then]
    rw [wp_byteToSector (s := s.lock (x :: xs)) hl ht hj, wp_writeSector hxl,
      wp_byteToSector (s := (s.lock (x :: xs)).setDisk x _) hl ht' hj, wp_rwV hxl, hu,
      ih (s := s.setDisk x _) hl ht' (fun y hy => hm y (List.mem_cons_of_mem _ hy)) hxs]
    simp [writeBlocks]

end sequential
end Nachos
