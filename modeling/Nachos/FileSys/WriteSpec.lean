import Nachos.FileSys.OpenSpec

/-! `WriteAt` on a plain file of a tree: writes that take no new sector, and writes that do. -/

namespace Nachos
open Lib Program FileSystem

variable {s s' : Kernel} {v : Volume} {p : Place} {n n' : FileNode} {f : Handle} {lost : Set Nat}

theorem Volume.replaces_plain (hn : v.node p = some n) (ht : n.fileType = 0)
    (hs : n'.sectors = n.sectors)
    (ht' : n'.fileType = n.fileType) : v.Replaces p n n' :=
  .of_sectors hn hs ht' (fun h => by rw [ht] at h; cases h) fun h => by rw [ht] at h; cases h

theorem Rep.replace (hr : Rep s v) (hst : Steady s s') (h : v.Replaces p n n') (hon : n'.On s'.disk)
    (hmap : v.mapFile.On s'.disk) (hd : ∀ x, x ≠ 0 → x ∉ n'.sectors → s'.disk x = s.disk x) :
    Rep s' (v.replace p n n' h) where
  quiet := hst.quiet hr.quiet
  names := hst.names.trans hr.names
  map := hmap
  on q m hm := by
    rcases Volume.replace_cases hm with ⟨-, rfl⟩ | ⟨hq, hm⟩
    · exact hon
    · refine (hr.on q m hm).frame fun x hx => hd x ?_ fun hxn => h.apart q m hq hm x hxn hx
      rintro rfl
      exact v.mapApart q m hm 0 (v.isMap.hdr ▸ List.mem_cons_self ..) hx

theorem FileNode.take_grow {index data : List Nat} {len : Nat} {d : Nat → Sector}
    (hg : n.Grows index data len)
    (hon : n.On d) (hlen : n.length ≤ len) :
    (FileNode.grow hg d).content.take n.length.toNat = n.content := by
  have hroom := n.room
  change ((blocks d (n.data ++ data)).take len).take n.length.toNat = n.content
  rw [List.take_take, Nat.min_eq_left (by omega), blocks_append,
    List.take_append_of_le_length (by rw [length_blocks]; omega), hon.content]

theorem Rep.wp_writeAt_within {src : List Byte} {pos : Nat} (hr : Rep s v) (hn : v.node p = some n)
    (ht : n.fileType = 0) (ho : s.OpenOn f n.hdr) (hk : 0 < src.length)
    (hroom : ((pos + src.length : Nat) : Int) ≤ 128 * n.numSectors) {Q : Int → Kernel → Prop}
    (hQ : ∀ s' n' (h : v.Replaces p n n'), Rep s' (v.replace p n n' h) → Steady s s' →
      n'.sectors = n.sectors → n'.numSectors = n.numSectors → n'.numVisits = n.numVisits →
      n'.length = max n.length (pos + src.length : Nat) →
      (∃ c, c.length = n'.length.toNat ∧ c.take n.length.toNat = n.content ∧
        n'.content = splice c pos src) →
      Q src.length s') :
    Wp (OpenFile.writeAt f src pos) Q s := by
  have hon := hr.on p n hn
  by_cases hin : ((pos + src.length : Nat) : Int) ≤ n.length
  · have hp : (pos : Int) + src.length ≤ n.length := by omega
    refine wp_writeAt_inPlace hr.quiet hon ho hk hp fun s₁ hst hon₁ hd => ?_
    have hrep : v.Replaces p n (n.overwrite pos src hp) := Volume.replaces_plain hn ht rfl rfl
    refine hQ s₁ _ hrep (hr.replace hst hrep hon₁ ?_ fun x _ hx => hd x fun hxd => ?_)
      hst rfl rfl rfl
      (Int.max_eq_left hin).symm ⟨n.content, n.size, ?_, rfl⟩
    · exact hr.map.frame fun x hx => hd x fun hxd =>
        v.mapApart p n hn x hx (List.mem_cons_of_mem _ (List.mem_append_right _ hxd))
    · exact hx (List.mem_cons_of_mem _ (List.mem_append_right _ hxd))
    · exact List.take_of_length_le n.size.le
  · have hsite : Sited s f n v.mapFile v.map :=
      ⟨hr.quiet, hon, ho, v.isMap, hr.map, v.mapApart p n hn⟩
    refine Nachos.wp_writeAt_within hsite hk (by omega) hroom fun s₁ hst hon₁ hmap hd => ?_
    have hs : ((FileNode.grow (FileNode.grows_within hroom) s.disk).overwrite pos src
        (Int.le_refl _)).sectors = n.sectors := by
      simp [FileNode.sectors, FileNode.overwrite, FileNode.grow]
    have hrep := Volume.replaces_plain hn ht hs rfl
    refine hQ s₁ _ hrep (hr.replace hst hrep hon₁ hmap (by rw [hs]; exact hd)) hst hs ?_ rfl
      (Int.max_eq_right (b := ((pos + src.length : Nat) : Int)) (by omega)).symm ⟨_, ?_, ?_, rfl⟩
    · exact Int.add_zero _
    · exact (FileNode.grow (FileNode.grows_within hroom) s.disk).size
    · exact FileNode.take_grow _ hon (by omega)

/-- When a write at `pos` takes no new sector: it has no bytes, it ends inside the last
sector, or there are too few free sectors. -/
def FileNode.Fits (n : FileNode) (numClear : Nat) (pos k : Nat) : Prop :=
  k = 0 ∨ ((pos + k : Nat) : Int) ≤ 128 * n.numSectors ∨
    pos + k < 2147483648 ∧ 0 ≤ n.length ∧ (numClear : Int) < divRoundUp
      ((pos + k : Nat) - n.length) 128

theorem Rep.wp_writeAt_fits {src : List Byte} {pos : Nat} (hr : Rep s v) (hmk : v.Marks lost)
    (hn : v.node p = some n) (ht : n.fileType = 0) (ho : s.OpenOn f n.hdr)
    (hfit : n.Fits v.map.numClear pos src.length) {Q : Int → Kernel → Prop}
    (hQ : ∀ r s' v', Rep s' v' → v'.Marks lost → Steady s s' → Q r s') :
    Wp (OpenFile.writeAt f src pos) Q s := by
  by_cases hk : src.length = 0
  · refine wp_writeAt_fetched hr.quiet (hr.on p n hn).holds ho fun s₁ hs => ?_
    rw [if_pos (by omega), wp_pure]
    exact hQ 0 s₁ v (hr.steady hs.toSteady hs.disk) hmk hs.toSteady
  by_cases hroom : ((pos + src.length : Nat) : Int) ≤ 128 * n.numSectors
  · exact hr.wp_writeAt_within hn ht ho (by omega) hroom fun s₁ n' hrep hr₁ hst hs _ _ _ _ =>
      hQ _ s₁ _ hr₁ (hmk.replace hrep hs) hst
  · obtain ⟨hlt, hpos, hfew⟩ := (hfit.resolve_left hk).resolve_left hroom
    have hsite : Sited s f n v.mapFile v.map :=
      ⟨hr.quiet, hr.on p n hn, ho, v.isMap, hr.map, v.mapApart p n hn⟩
    have hgt : n.length < pos + src.length := by
      have := n.room
      have := n.count
      omega
    exact wp_writeAt_refused hsite (by omega) (by omega) hpos hgt (by omega) hfew fun s₁ hst htc =>
      hQ 0 s₁ v (hr.touched hst htc (.inl rfl)) hmk hst

/-! ## Growth -/

structure FileNode.TookIn (n n' : FileNode) (L : List Nat) : Prop where
  sectors : n'.sectors.Perm (n.sectors ++ L)
  inTable : L.length ≤ lastRoom n.data.length → n'.index = n.index ∧ n'.data = n.data ++ L

/-- A write that takes the free sectors `L`. The free map on the disk stays as it is. -/
theorem Rep.wp_writeAt_alloc {src : List Byte} {pos extra : Nat} {L rest : List Nat} (hr : Rep s v)
    (hmk : v.Marks lost) (hn : v.node p = some n) (ht : n.fileType = 0) (ho : s.OpenOn f n.hdr)
    (hpos : 0 ≤ n.length) (hnum : n.numSectors = n.data.length)
    (hlen : 128 * n.data.length < pos + src.length) (hlen' : pos + src.length < 2147483648)
    (hk : 0 < src.length) (hextra : (extra : Int) = divRoundUp
      ((pos + src.length : Nat) - n.length) 128)
    (h25 : tablesFor (n.data.length + extra) ≤ 25) (hf : v.map.free = L ++ rest)
    (hL : L.length = extra + (tablesFor (n.data.length + extra) - n.index.length))
    {Q : Int → Kernel → Prop}
    (hQ : ∀ s' n' (h : v.Replaces p n n'), Rep s' (v.replace p n n' h) → Steady s s' →
      n.TookIn n' L → n'.numSectors = n.numSectors + extra →
      n'.numVisits = n.numVisits → n'.length = (pos + src.length : Nat) →
      (∃ c, c.length = pos + src.length ∧ c.take n.length.toNat = n.content ∧
        n'.content = splice c pos src) →
      Q src.length s') :
    Wp (OpenFile.writeAt f src pos) Q s := by
  have hsite : Sited s f n v.mapFile v.map :=
    ⟨hr.quiet, hr.on p n hn, ho, v.isMap, hr.map, v.mapApart p n hn⟩
  have hroom := n.room
  have hLfree : ∀ x ∈ L, ¬ v.Owned x := fun x hx =>
    hmk.free_not_owned (hf ▸ List.mem_append_left _ hx)
  have hused : ∀ x ∈ n.sectors ++ v.mapFile.sectors, v.map.testBit x = true := by
    intro x hx
    refine ((hmk.used x).mpr (.inl ?_)).2
    rcases List.mem_append.mp hx with hx | hx
    · exact .inr ⟨p, n, hn, hx⟩
    · exact .inl hx
  refine Nachos.wp_writeAt_alloc hsite hpos hnum hlen hlen' hk hextra h25 hf hL hused
    fun s' index data hp hdl hin hg hst hon hmap hd => ?_
  have hsec : ((FileNode.grow hg s.disk).overwrite pos src (Int.le_refl _)).sectors.Perm
    (n.sectors ++ L) := by
    change (n.hdr :: ((n.index ++ index) ++ (n.data ++ data))).Perm
      (n.hdr :: (n.index ++ n.data) ++ L)
    have hswap : ((n.index ++ index) ++ (n.data ++ data)).Perm
      ((n.index ++ n.data) ++ (index ++ data)) := by
      rw [List.append_assoc, List.append_assoc]
      refine List.Perm.append_left _ ?_
      rw [← List.append_assoc, ← List.append_assoc]
      exact List.perm_append_comm.append_right _
    exact (hswap.trans (hp.append_left _)).cons _
  have hnew : ∀ x ∈ ((FileNode.grow hg s.disk).overwrite pos src (Int.le_refl _)).sectors,
      x ∈ n.sectors ∨ x ∈ L := fun x hx => List.mem_append.mp (hsec.subset hx)
  have hrep : v.Replaces p n ((FileNode.grow hg s.disk).overwrite pos src (Int.le_refl _)) := by
    refine ⟨hn, rfl, rfl, fun h => ?_, fun h => ?_, fun q m hq hm x hx hxm => ?_,
      fun x hx hxn => ?_⟩
    · rw [ht] at h
      cases h
    · rw [ht] at h
      cases h
    · rcases hnew x hx with hx | hx
      · exact v.apart p q n m hn hm hq.symm x hx hxm
      · exact hLfree x hx (.inr ⟨q, m, hm, hxm⟩)
    · rcases hnew x hxn with hxn | hxn
      · exact v.mapApart p n hn x hx hxn
      · exact hLfree x hxn (.inl hx)
  refine hQ s' _ hrep (hr.replace hst hrep hon hmap fun x hx hxn => ?_) hst ⟨hsec,
    fun h => ?_⟩ ?_ rfl rfl
    ⟨_, ?_, ?_, rfl⟩
  · have hx' := fun hm => hxn (hsec.symm.subset hm)
    exact hd x hx (fun h => hx' (List.mem_append_left _ h)) fun h => hx' (List.mem_append_right _ h)
  · have hdata := hin (by omega)
    have hlen := hp.length_eq
    rw [List.length_append, hdata] at hlen
    have hindex : index = [] := List.eq_nil_of_length_eq_zero (by omega)
    exact ⟨by rw [← List.append_nil n.index, ← hindex]; rfl, by rw [← hdata]; rfl⟩
  · change n.numSectors + data.length = _
    rw [hdl]
  · exact (FileNode.grow hg s.disk).size
  · exact FileNode.take_grow hg (hr.on p n hn) (by omega)

end Nachos
