import Nachos.FileSys.FileSystem

/-! How `getFileName` takes a path apart: all but the first of its components count, unless
it has only one. -/

namespace Nachos
namespace FileSystem

def components (name : CString) : List CString := List.splitOn '/' name

def dirComps : List CString → List CString
  | _ :: c :: c' :: ws => c :: dirComps (c :: c' :: ws)
  | _ => []

def lastComp : List CString → CString
  | [] => []
  | [c] => c
  | _ :: c :: ws => lastComp (c :: ws)

variable {w w' : CString} {ws : List CString} {name : CString}

theorem not_mem_of_mem_components (h : w ∈ components name) : '/' ∉ w := by
  induction name generalizing w with
  | nil =>
    simp only [components, List.splitOn_nil, List.mem_singleton] at h
    simp [h]
  | cons c cs ih =>
    rw [components, List.splitOn_cons_eq_if_modifyHead] at h
    split at h
    · rcases List.mem_cons.mp h with rfl | h
      · simp
      · exact ih h
    · next hc =>
      have ih' : ∀ u ∈ List.splitOn '/' cs, '/' ∉ u := fun u hu => ih hu
      match hs : List.splitOn '/' cs, h with
      | u :: us, h =>
        rw [hs] at ih'
        rw [List.modifyHead_cons] at h
        rcases List.mem_cons.mp h with rfl | h
        · have hu := ih' u (List.mem_cons_self ..)
          intro hm
          rcases List.mem_cons.mp hm with rfl | hm
          · exact hc (beq_self_eq_true _)
          · exact hu hm
        · exact ih' w (List.mem_cons_of_mem _ h)

theorem components_ne_nil (name : CString) : components name ≠ [] := List.splitOn_ne_nil _ _

theorem length_components_le (name : CString) : (components name).length ≤ name.length + 1 := by
  induction name with
  | nil => rfl
  | cons c cs ih =>
    rw [components] at ih
    rw [components, List.splitOn_cons_eq_if_modifyHead]
    split
    · simpa using ih
    · rw [List.length_modifyHead, List.length_cons]
      omega

theorem lastComp_mem (h : ws ≠ []) : lastComp ws ∈ ws := by
  induction ws with
  | nil => exact absurd rfl h
  | cons w ws ih =>
    cases ws with
    | nil => exact List.mem_cons_self ..
    | cons u us => exact List.mem_cons_of_mem _ (ih (by simp))

def joinPath (ws : List CString) : CString := ['/'].intercalate ws

theorem joinPath_components (name : CString) : joinPath (components name) = name :=
  List.intercalate_splitOn '/'

theorem joinPath_cons (hn : ws ≠ []) : joinPath (w :: ws) = w ++ '/' :: joinPath ws := by
  cases ws with
  | nil => exact absurd rfl hn
  | cons u us => simp [joinPath, List.intercalate]

theorem joinPath_singleton : joinPath [w] = w := by simp [joinPath, List.intercalate]

/-! ## The scan -/

theorem scanPath_append (cs : CString) (i : Nat) {tok : Nat} (f st : Nat) (hw : '/' ∉ w)
    (ht : tok < 2) :
    scanPath (w ++ cs) i tok f st = scanPath cs (i + w.length) tok f st := by
  induction w generalizing i with
  | nil => rfl
  | cons c w ih =>
    have hc : c ≠ '/' := fun e => hw (e ▸ List.mem_cons_self ..)
    rw [List.cons_append, scanPath, if_pos ht, if_neg hc,
      ih (i + 1) fun h => hw (List.mem_cons_of_mem _ h), List.length_cons]
    congr 1
    omega

theorem scanPath_two {cs : CString} {i f st : Nat} : scanPath cs i 2 f st = (f, st) := by
  cases cs with
  | nil => rfl
  | cons c cs => rw [scanPath, if_neg (by omega)]

theorem scanPath_singleton (hw : '/' ∉ w) : scanPath (joinPath [w]) 0 0 0 0 = (0, 0) := by
  have h := scanPath_append [] 0 0 0 hw (by omega : 0 < 2)
  rw [List.append_nil] at h
  rw [joinPath_singleton, h, scanPath]

theorem scanPath_pair (hw : '/' ∉ w) (hw' : '/' ∉ w') :
    scanPath (joinPath [w, w']) 0 0 0 0 = (w.length + 1, 0) := by
  have h := fun i f => scanPath_append [] i f 0 hw' (by omega : 1 < 2)
  simp only [List.append_nil] at h
  rw [joinPath_cons (by simp), scanPath_append _ _ _ _ hw (by omega), scanPath, if_pos (by omega),
    if_pos rfl,
    if_pos rfl, joinPath_singleton, h, scanPath, Nat.zero_add]

theorem scanPath_more (hw : '/' ∉ w) (hw' : '/' ∉ w') (hn : ws ≠ []) :
    scanPath (joinPath (w :: w' :: ws)) 0 0 0 0 = (w.length + 1,
      w.length + 1 + (w'.length + 1)) := by
  rw [joinPath_cons (by simp), scanPath_append _ _ _ _ hw (by omega), scanPath, if_pos (by omega),
    if_pos rfl,
    if_pos rfl, joinPath_cons hn, scanPath_append _ _ _ _ hw' (by omega), scanPath,
      if_pos (by omega), if_pos rfl,
    if_neg (by omega), scanPath_two]
  congr 1 <;> omega

theorem drop_joinPath (hn : ws ≠ []) : (joinPath (w :: ws)).drop (w.length + 1) = joinPath ws := by
  rw [joinPath_cons hn, ← List.drop_drop, List.drop_left]
  rfl

theorem take_joinPath (hn : ws ≠ []) : (joinPath (w :: ws)).take w.length = w := by
  rw [joinPath_cons hn, List.take_left]

/-! ## The loop over the components -/

/-- `getFileName` on the components of a path: the directories `cs` on the way, and the name `last`
to be looked up behind them. -/
def walkComps (last : CString) (directory : Directory) (currDirectoryFile : Handle) :
    List CString → Prog (Option CString × Directory × Handle)
  | [] => do
    let directory ← directory.fetchFrom currDirectoryFile
    return (some last, directory, currDirectoryFile)
  | c :: cs => do
    let directory ← directory.fetchFrom currDirectoryFile
    if (← directory.find (some c)) = -1 then return (none, directory, currDirectoryFile)
    else
      let newSector ← directory.find (some c)
      let currDirectoryFile ← OpenFile.new newSector
      walkComps last directory currDirectoryFile cs

theorem walkPath_eq (directory : Directory) (f : Handle) {fuel : Nat} (hne : ws ≠ [])
    (hpl : ∀ w ∈ ws, '/' ∉ w) (hfuel : ws.length ≤ fuel) :
    walkPath directory f (joinPath ws) fuel =
      walkComps (lastComp ws) directory f (dirComps ws) := by
  induction ws generalizing directory f fuel with
  | nil => exact absurd rfl hne
  | cons w ws ih =>
    obtain ⟨fuel, rfl⟩ : ∃ k, fuel = k + 1 := ⟨fuel - 1, by rw [List.length_cons] at hfuel; omega⟩
    have hw := hpl w (List.mem_cons_self ..)
    rw [walkPath]
    cases ws with
    | nil =>
      simp only [scanPath_singleton hw, if_true, List.drop_zero]
      rw [joinPath_singleton]
      rfl
    | cons w' ws =>
      have hw' := hpl w' (by simp)
      cases ws with
      | nil =>
        simp only [scanPath_pair hw hw', if_true, drop_joinPath (show [w'] ≠ [] by simp)]
        rw [joinPath_singleton]
        rfl
      | cons u us =>
        -- two slashes are left: `w'` is a directory, and only `w` is dropped
        have hlen : w.length + 1 + (w'.length + 1) - 1 - (w.length + 1) = w'.length := by omega
        have hsome : ¬ w.length + 1 + (w'.length + 1) = 0 := by omega
        have hnext : ∀ d g, walkPath d g (joinPath (w' :: u :: us)) fuel =
            walkComps (lastComp (w' :: u :: us)) d g (dirComps (w' :: u :: us)) := fun d g =>
          ih d g (by simp) (fun x hx => hpl x (List.mem_cons_of_mem _ hx)) (by simpa using hfuel)
        simp only [scanPath_more hw hw' (show u :: us ≠ [] by simp), hsome, if_false, hlen,
          drop_joinPath (show w' :: u :: us ≠ [] by simp),
          take_joinPath (show u :: us ≠ [] by simp), hnext]
        rfl

theorem getFileName_eq (name : CString) : getFileName name = (do
    let rootFile ← OpenFile.new 1
    let directory ← Directory.new 10
    walkComps (lastComp (components name)) directory rootFile (dirComps (components name))) := by
  have hwalk : ∀ d f, walkPath d f name (name.length + 1) =
      walkComps (lastComp (components name)) d f (dirComps (components name)) := fun d f => by
    have h := walkPath_eq d f (components_ne_nil name) (fun w hw => not_mem_of_mem_components hw)
      (length_components_le name)
    rwa [joinPath_components] at h
  simp only [getFileName, hwalk]

/-! ## The path of a child -/

theorem components_child (name : CString) {child : CString} (h : '/' ∉ child) :
    components (name ++ '/' :: child) = components name ++ [child] := by
  rw [components, List.splitOn_append_cons_self, List.splitOn_eq_singleton h]
  rfl

theorem components_of_slash (h : '/' ∈ name) : ∃ w ws, components name = w :: ws ∧ ws ≠ [] := by
  cases hcs : components name with
  | nil => exact absurd hcs (components_ne_nil name)
  | cons w ws =>
    refine ⟨w, ws, rfl, ?_⟩
    rintro rfl
    have hjoin := joinPath_components name
    rw [hcs, joinPath_singleton] at hjoin
    exact not_mem_of_mem_components (hcs ▸ List.mem_singleton_self w) (hjoin ▸ h)

theorem lastComp_append {child : CString} (h : ws ≠ []) : lastComp (ws ++ [child]) = child := by
  induction ws with
  | nil => exact absurd rfl h
  | cons w ws ih =>
    cases ws with
    | nil => rfl
    | cons u us => exact ih (by simp)

theorem dirComps_append {child : CString} (h : ws ≠ []) :
    dirComps ((w :: ws) ++ [child]) = dirComps (w :: ws) ++ [lastComp (w :: ws)] := by
  induction ws generalizing w with
  | nil => exact absurd rfl h
  | cons u us ih =>
    cases us with
    | nil => rfl
    | cons u' us =>
      have hu := ih (w := u) (by simp)
      exact congrArg (u :: ·) hu

end FileSystem
end Nachos
