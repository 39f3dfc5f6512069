import Nachos.FileSys.OpenSpec
import Nachos.FileSys.FormatSpec

/-! What `FileSystem::Open` answers. The variable for the result is also the one in which
`getFileName` leaves the directory that it has come to. -/

namespace Nachos
open Lib Program FileSystem

variable {s s' : Kernel} {v : Volume} {name : CString}

/-- `Open` with its result as a pointer, `none` for NULL. -/
def FileSystem.openPointer (name : CString) : Prog (Option Handle) := do
  let (name, directory, currDirectoryFile) ← getFileName name
  -- `openFile` was NULL until here
  let openFile := some currDirectoryFile
  let sector ← directory.find name
  if sector ≥ 0 then
    let fileHdr ← FileHeader.fetchFrom sector
    let fileHdr := { fileHdr with numVisits := fileHdr.numVisits + 1 }
    fileHdr.writeBack sector
    return some (← OpenFile.new sector)
  else return openFile

theorem wp_openPointer {Q : Option Handle → Kernel → Prop} :
    Wp (openPointer name) Q s ↔ Wp («open» name) (fun f => Q (some f)) s := by
  rw [openPointer, «open», wp_then, wp_then]
  refine iff_of_eq (congrArg (fun R => Wp (getFileName name) R s) ?_)
  funext r s₁
  obtain ⟨name', directory, f⟩ := r
  simp only [wp_then]
  congr 1
  funext sector s₂
  split
  · simp only [wp_then, wp_pure]
  · simp only [wp_pure]

theorem not_wp_openPointer_null : ¬ Wp (openPointer name) (fun r _ => r = none) s := by
  rw [wp_openPointer]
  rintro ⟨f, s', -, h⟩
  cases h

/-- What `Open` should do. If the path is bound, its result is an object at position 0 on the header
that it is bound to, whose visit count grows by one. Otherwise the result is NULL. Apart from that,
at most visit times of headers change on the disk. -/
structure OpensExactly (v : Volume) (name : CString) (s s' : Kernel) (r : Option Handle) :
    Prop where
  bound : ∀ p i n, v.Binds name p i n → ∃ f, r = some f ∧ s'.OpenOn f n.hdr ∧
    (s'.files f).seekPosition = 0 ∧ Restamped v.Header (countVisit s.disk n.hdr) s'.disk
  unbound : (∀ p i n, ¬ v.Binds name p i n) → r = none ∧ Restamped v.Header s.disk s'.disk

theorem Volume.Binds.unique {p q : Place} {i j : Nat} {n m : FileNode} (h : v.Binds name p i n)
    (h' : v.Binds name q j m) : n = m := by
  obtain rfl := Option.some.inj (h.walk.symm.trans h'.walk)
  obtain rfl := Option.some.inj (h.child.symm.trans h'.child)
  exact Option.some.inj (h.node.symm.trans h'.node)

/-- `Open` does what it should exactly on the paths that are bound. -/
theorem open_exact_iff (hr : Rep s v) (name : CString) :
    Wp (openPointer name) (fun r s' => OpensExactly v name s s' r) s ↔
      ∃ p i n, v.Binds name p i n := by
  constructor
  · intro hw
    by_contra hnone
    push Not at hnone
    exact not_wp_openPointer_null (hw.mono fun r s' h => (h.unbound hnone).1)
  · rintro ⟨p, i, n, h⟩
    rw [wp_openPointer]
    refine wp_open_bound hr h fun s' f _ _ ho _ hseek hs => ⟨fun q j m h' => ?_, fun hnone => ?_⟩
    · obtain rfl := h.unique h'
      exact ⟨f, rfl, ho, hseek, hs⟩
    · exact absurd h (hnone p i n)

/-- A new disk with one file, which is opened. -/
theorem open_exact_first : ∃ s v, Rep s v ∧
    Wp (openPointer ['a']) (fun r s' => OpensExactly v ['a'] s s' r) s := by
  have hfirst := wp_formatCreate ['a'] 0 Kernel.quiet_zeroed (by decide) (by decide) (by decide)
    (by decide) (Q := fun _ s => ∃ v, Rep s v ∧ ∃ p i n, v.Binds ['a'] p i n)
    fun s _ v i n h => ⟨v, h.rep, [], i, n, h.binds⟩
  obtain ⟨-, s, -, v, hr, hb⟩ := hfirst
  exact ⟨s, v, hr, (open_exact_iff hr ['a']).mpr hb⟩

/-- On a new disk nothing is bound, and `Open` answers the root directory. -/
theorem open_missing_root : ∃ s v, Rep s v ∧ (∀ p i n, ¬ v.Binds ['a'] p i n) ∧
    Wp (openPointer ['a']) (fun r s' => ∃ f, r = some f ∧ s'.OpenOn f 1) s := by
  obtain ⟨-, s, -, v, hr, hnode⟩ := wp_format Kernel.quiet_zeroed
    (Q := fun _ s => ∃ v, Rep s v ∧ ∀ p, p ≠ [] → v.node p = none)
    fun fs s v hr _ _ hnode _ _ _ => ⟨v, hr, hnode⟩
  have hunbound : ∀ p i n, ¬ v.Binds ['a'] p i n := fun p i n h => by
    have hn := h.node
    rw [hnode _ (by simp)] at hn
    cases hn
  have hnone : v.child [] (lastComp (components ['a'])) = none := by
    cases hc : v.child [] (lastComp (components ['a'])) with
    | none => rfl
    | some i =>
      obtain ⟨⟨n, hn⟩, -⟩ := Volume.child_eq_some.mp hc
      exact absurd ⟨rfl, hc, hn⟩ (hunbound [] i n)
  refine ⟨s, v, hr, hunbound, ?_⟩
  obtain ⟨r, hroot, hr1, hrt⟩ := v.root
  have hwalk : v.walk [] (dirComps (components ['a'])) = some [] := rfl
  obtain ⟨s₁, f, hr₁, h₁, hwp⟩ := Rep.getFileName_found hr hwalk hroot hrt
  rw [wp_openPointer, «open», wp_then, hwp]
  simp only [wp_then]
  rw [wp_lookup_missing hr₁ hroot hrt hnone, if_neg (by decide), wp_pure]
  exact ⟨f, rfl, hr1 ▸ h₁.openOn⟩

end Nachos
