import Nachos.Machine.FrameMap

/-! What the pages hold. Each byte that a thread expects at one of its addresses is in the frame
of the page, or, as long as the page has no entry that was used, in the backing file. An address
that nobody wrote may also be missing in the file; then the frame has to provide the zero. -/

namespace Nachos
open Lib

namespace Memory
variable {m m' : Memory} {tid now t : Int} {i j g : Fin 32} {a : Access} {v w : Nat}

/-! ## Frames -/

/-- Valid entries have different frames, and entries in use have one. An entry for which there
was no frame left has the frame -1. -/
structure Framed (m : Memory) : Prop where
  used : ∀ i, (m.pageTable i).use = true →
    (m.pageTable i).valid = true ∧ 0 ≤ (m.pageTable i).physicalPage
  marked : ∀ i, (m.pageTable i).valid = true → 0 ≤ (m.pageTable i).physicalPage →
    (m.pageTable i).physicalPage < 32 ∧
      m.memBitMap.testBit (m.pageTable i).physicalPage.toNat = true
  distinct : ∀ i j, (m.pageTable i).valid = true → (m.pageTable j).valid = true →
    0 ≤ (m.pageTable i).physicalPage →
    (m.pageTable i).physicalPage = (m.pageTable j).physicalPage → i = j
  page : ∀ i, (m.pageTable i).valid = true → ∃ w < 33554432, (m.pageTable i).virtualPage = (w : Nat)

theorem vpn_lt (a : Access) : a.vpn < 33554432 := by
  have := a.addr.isLt
  rw [Access.vpn]
  omega

theorem find_cases (m : Memory) :
    m.memBitMap.find = (-1, m.memBitMap) ∨
    ∃ f < 32, m.memBitMap.testBit f = false ∧ m.memBitMap.find = ((f : Int), m.memBitMap.markBit f) := by
  cases hf : m.memBitMap.free with
  | nil => exact .inl (BitMap.find_of_free_nil hf)
  | cons f rest =>
    have hm : f ∈ m.memBitMap.free := hf ▸ List.mem_cons_self ..
    rw [BitMap.mem_free, m.numBits] at hm
    exact .inr ⟨f, hm.1, hm.2, BitMap.find_of_free_cons hf⟩

theorem given_cases (m : Memory) :
    (∃ i, m.firstUnused = some i ∧ m.given = i ∧ (m.pageTable i).use = false ∧
      m.givenFrame = m.memBitMap.find.1) ∨
    m.firstUnused = none ∧ m.given = m.oldest ∧ (m.pageTable m.oldest).use = true ∧
      m.givenFrame = (m.pageTable m.oldest).physicalPage := by
  cases h : m.firstUnused with
  | none => exact .inr ⟨rfl, by simp [given, h], firstUnused_eq_none.mp h _, by simp [givenFrame, h]⟩
  | some i =>
    exact .inl ⟨i, rfl, by simp [given, h], not_use_of_firstUnused h, by simp [givenFrame, h]⟩

theorem testBit_serviced {f : Nat} (hf : m.memBitMap.testBit f = true) :
    (m.serviced tid a).memBitMap.testBit f = true := by
  rw [serviced_memBitMap]
  split
  · exact hf
  · obtain hn | ⟨f', hlt, -, hn⟩ := m.find_cases
    · rwa [hn]
    · rw [hn, BitMap.testBit_markBit (by rwa [m.numBits]), hf, Bool.or_true]

namespace Framed

theorem givenFrame_ne (h : m.Framed) (hv : (m.pageTable j).valid = true)
    (hj : j ≠ m.given) (h0 : 0 ≤ m.givenFrame) : (m.pageTable j).physicalPage ≠ m.givenFrame := by
  intro he
  obtain ⟨i, -, -, -, hf⟩ | ⟨-, hg, hu, hf⟩ := m.given_cases
  · obtain hn | ⟨f, -, hfree, hn⟩ := m.find_cases
    · rw [hf, hn] at h0
      cases h0
    · have hm := (h.marked j hv (he ▸ h0)).2
      rw [he, hf, hn, Int.toNat_natCast, hfree] at hm
      cases hm
  · obtain ⟨hvo, -⟩ := h.used _ hu
    exact hj (hg ▸ h.distinct j _ hv hvo (he ▸ h0) (he.trans hf))

theorem givenFrame_marked (h : m.Framed) (h0 : 0 ≤ m.givenFrame) :
    m.givenFrame < 32 ∧ (m.serviced tid a).memBitMap.testBit m.givenFrame.toNat = true := by
  obtain ⟨i, hi, -, -, hf⟩ | ⟨-, hg, hu, hf⟩ := m.given_cases
  · obtain hn | ⟨f, hlt, hfree, hn⟩ := m.find_cases
    · rw [hf, hn] at h0
      cases h0
    · rw [serviced_memBitMap, hi, if_neg (by simp), hf, hn]
      refine ⟨by simpa using hlt, ?_⟩
      rw [Int.toNat_natCast, BitMap.testBit_markBit (by rwa [m.numBits]), decide_eq_true rfl,
        Bool.true_or]
  · obtain ⟨hvo, hpos⟩ := h.used _ hu
    obtain ⟨hlt, hm⟩ := h.marked _ hvo hpos
    rw [hf]
    exact ⟨hlt, testBit_serviced hm⟩

theorem serviced (h : m.Framed) : (m.serviced tid a).Framed := by
  refine ⟨fun j => ?_, fun j => ?_, fun j k => ?_, fun j => ?_⟩ <;> rw [serviced_pageTable]
  · by_cases hj : j = m.given
    · subst hj
      rw [Function.update_self]
      obtain ⟨i, -, hg, hu, -⟩ | ⟨-, hg, hu, hf⟩ := m.given_cases
      · rw [hg]
        exact fun hu' => absurd hu' (by simp [hu])
      · exact fun _ => ⟨rfl, hf ▸ (h.used _ hu).2⟩
    · rw [Function.update_of_ne hj]
      exact h.used j
  · by_cases hj : j = m.given
    · subst hj
      rw [Function.update_self]
      exact fun _ h0 => h.givenFrame_marked h0
    · rw [Function.update_of_ne hj]
      exact fun hv h0 => (h.marked j hv h0).imp_right testBit_serviced
  · by_cases hj : j = m.given <;> by_cases hk : k = m.given
    · exact fun _ _ _ _ => hj.trans hk.symm
    · rw [hj, Function.update_self, Function.update_of_ne hk]
      exact fun _ hv h0 he => absurd he.symm (h.givenFrame_ne hv hk h0)
    · rw [hk, Function.update_self, Function.update_of_ne hj]
      exact fun hv _ h0 he => absurd he (h.givenFrame_ne hv hj (h0.trans he.le))
    · rw [Function.update_of_ne hj, Function.update_of_ne hk]
      exact h.distinct j k
  · by_cases hj : j = m.given
    · rw [hj, Function.update_self]
      exact fun _ => ⟨a.vpn, vpn_lt a, rfl⟩
    · rw [Function.update_of_ne hj]
      exact h.page j

theorem performed (h : m.Framed) (hi : m.HitBy tid a i) : (m.performed tid now a i).Framed := by
  have hsame := @performed_entry m tid now i a
  refine ⟨fun j hu => ?_, fun j => ?_, fun j k => ?_, fun j => ?_⟩
  · rw [(hsame j).1, (hsame j).2.1]
    by_cases hj : j = i
    · subst hj
      exact ⟨(maps_iff.mp hi.maps).2.1, hi.nonneg⟩
    · rw [performed_pageTable, Function.update_of_ne hj] at hu
      exact h.used j hu
  · rw [(hsame j).1, (hsame j).2.1]
    exact h.marked j
  · rw [(hsame j).1, (hsame j).2.1, (hsame k).1, (hsame k).2.1]
    exact h.distinct j k
  · rw [(hsame j).1, (hsame j).2.2.2.1]
    exact h.page j

end Framed

/-! ## Contents -/

/-- The byte is on the disk, or it is a zero that nobody wrote. -/
def Backs (f : BackingFile) (Fresh : Prop) (p : Nat) (b : Byte) : Prop :=
  f.stored p = some b ∨ f.stored p = none ∧ b = 0 ∧ Fresh

/-- `X t p` is what thread `t` expects at `p`, if anything. Only pages in `T` are considered, and
addresses in `Fresh` may be missing in the file. -/
structure Coherent (T : Int → Nat → Prop) (Fresh : Int → Nat → Prop)
    (X : Int → Nat → Option Byte) (m : Memory) : Prop where
  framed : m.Framed
  pages : OncePerPage m.pageTable
  resident : ∀ t v i, T t v → m.maps t v i = true → 0 ≤ (m.pageTable i).physicalPage →
    ∀ o < 128, ∀ b, X t (v * 128 + o) = some b →
      m.mainMemory ((m.pageTable i).physicalPage * 128 + (o : Nat)) = b
  backed : ∀ t v, T t v → (∀ i, m.maps t v i = true → (m.pageTable i).use = false) →
    ∀ o < 128, ∀ b, X t (v * 128 + o) = some b →
      Backs m.disk (Fresh t (v * 128 + o)) (v * 128 + o) b
  stale : ∀ t p, Fresh t p → m.disk.length ≤ p → m.disk.byte p = 0

variable {T : Int → Nat → Prop} {Fresh : Int → Nat → Prop} {X X' : Int → Nat → Option Byte}

theorem misaligned_half {addr : Word} (h : misaligned addr .half = false) : addr.toNat % 2 = 0 := by
  have h' : addr &&& 0x1 = 0 := by simpa [misaligned] using h
  have hn := congrArg BitVec.toNat h'
  rwa [BitVec.toNat_and, show (0x1 : Word).toNat = 2 ^ 1 - 1 from rfl,
    Nat.and_two_pow_sub_one_eq_mod] at hn

theorem misaligned_word {addr : Word} (h : misaligned addr .word = false) : addr.toNat % 4 = 0 := by
  have h' : addr &&& 0x3 = 0 := by simpa [misaligned] using h
  have hn := congrArg BitVec.toNat h'
  rwa [BitVec.toNat_and, show (0x3 : Word).toNat = 2 ^ 2 - 1 from rfl,
    Nat.and_two_pow_sub_one_eq_mod] at hn

theorem bytes_le_page {addr : Word} {size : MemSize} (h : misaligned addr size = false) :
    addr.toNat % 128 + size.bytes ≤ 128 := by
  cases size with
  | byte => simp only [MemSize.bytes]; omega
  | half =>
    have := misaligned_half h
    simp only [MemSize.bytes]
    omega
  | word =>
    have := misaligned_word h
    simp only [MemSize.bytes]
    omega

end Memory

def Access.byteAt (p : Nat) : Access → Option Byte
  | .read .. => none
  | .write addr size value =>
    if addr.toNat ≤ p ∧ p < addr.toNat + size.bytes then (leBytes value)[p - addr.toNat]? else none

namespace Memory
variable {m : Memory} {tid now : Int} {i : Fin 32} {a : Access}
  {T : Int → Nat → Prop} {Fresh : Int → Nat → Prop} {X X' : Int → Nat → Option Byte}

theorem store_eq {f : Int} {o : Nat} :
    a.store m.mainMemory (f * 128 + (a.addr.toNat % 128 : Nat)) (f * 128 + (o : Nat)) =
      (a.byteAt (a.vpn * 128 + o)).getD (m.mainMemory (f * 128 + (o : Nat))) := by
  cases a with
  | read addr size => rfl
  | write addr size value =>
    change overwrite m.mainMemory (f * 128 + (addr.toNat % 128 : Nat))
      ((leBytes value).take size.bytes) (f * 128 + o) =
      (if addr.toNat ≤ addr.toNat / 128 * 128 + o ∧
        addr.toNat / 128 * 128 + o < addr.toNat + size.bytes then
        (leBytes value)[addr.toNat / 128 * 128 + o - addr.toNat]? else none).getD
      (m.mainMemory (f * 128 + o))
    by_cases ho : addr.toNat % 128 ≤ o
    · obtain ⟨k, rfl⟩ := Nat.exists_eq_add_of_le ho
      have hk : addr.toNat / 128 * 128 + (addr.toNat % 128 + k) - addr.toNat = k := by omega
      have hc : (addr.toNat ≤ addr.toNat / 128 * 128 + (addr.toNat % 128 + k) ∧
          addr.toNat / 128 * 128 + (addr.toNat % 128 + k) < addr.toNat + size.bytes) ↔
          k < size.bytes := by omega
      rw [if_congr hc rfl rfl, hk, Nat.cast_add, ← Int.add_assoc, overwrite_add,
        List.getElem?_take]
    · rw [if_neg (by omega), overwrite_of_not le_rfl (by omega)]
      rfl

theorem store_of_ne (ha : misaligned a.addr a.size = false) {f f' : Int} (hf : f' ≠ f) {o : Nat}
    (ho : o < 128) :
    a.store m.mainMemory (f * 128 + (a.addr.toNat % 128 : Nat)) (f' * 128 + (o : Nat)) =
      m.mainMemory (f' * 128 + (o : Nat)) := by
  cases a with
  | read addr size => rfl
  | write addr size value =>
    have hp := bytes_le_page ha
    simp only [Access.addr, Access.size] at hp
    have hl : ((leBytes value).take size.bytes).length ≤ size.bytes := by simp
    refine overwrite_of_not hl ?_
    simp only [Access.addr]
    omega

theorem byteAt_page (ha : misaligned a.addr a.size = false) {p : Nat} (hb : a.byteAt p ≠ none) :
    p / 128 = a.vpn := by
  cases a with
  | read addr size => exact absurd rfl hb
  | write addr size value =>
    have hp := bytes_le_page ha
    simp only [Access.addr, Access.size] at hp
    rw [Access.byteAt] at hb
    split at hb
    · simp only [Access.vpn, Access.addr]
      omega
    · exact absurd rfl hb

namespace Coherent

theorem performed (h : m.Coherent T Fresh X) (hi : m.HitBy tid a i)
    (hX : ∀ t p b, X' t p = some b → t = tid ∧ a.byteAt p = some b ∨
      ¬ (t = tid ∧ a.byteAt p ≠ none) ∧ X t p = some b) :
    (m.performed tid now a i).Coherent T Fresh X' := by
  have hsame := @performed_entry m tid now i a
  have hpage : ∀ v o, o < 128 → (v * 128 + o) / 128 = v := fun v o ho => by omega
  obtain ⟨hti, hvi, hpi⟩ := maps_iff.mp hi.maps
  refine ⟨h.framed.performed hi, ?_, fun t v j hT hj h0 o ho b hb => ?_,
    fun t v hT hu o ho b hb => ?_, h.stale⟩
  · intro j k
    rw [(hsame j).1, (hsame j).2.2.1, (hsame j).2.2.2.1, (hsame k).1, (hsame k).2.2.1,
      (hsame k).2.2.2.1]
    exact h.pages j k
  · rw [maps_performed] at hj
    rw [(hsame j).2.1] at h0 ⊢
    rw [performed_mainMemory, physical]
    obtain ⟨htj, hvj, hpj⟩ := maps_iff.mp hj
    by_cases hij : (m.pageTable j).physicalPage = (m.pageTable i).physicalPage
    · -- the access went to the frame of this page
      obtain rfl := h.framed.distinct j i hvj hvi h0 hij
      obtain rfl : t = tid := htj.symm.trans hti
      obtain rfl : v = a.vpn := Int.ofNat_inj.mp (hpj.symm.trans hpi)
      rw [store_eq]
      obtain ⟨-, hw⟩ | ⟨hw, hb⟩ := hX _ _ _ hb
      · rw [hw]
        rfl
      · have hn : a.byteAt (a.vpn * 128 + o) = none := by
          by_contra hn
          exact hw ⟨rfl, hn⟩
        rw [hn]
        exact h.resident t _ j hT hj h0 o ho b hb
    · rw [store_of_ne hi.aligned hij ho]
      obtain ⟨rfl, hw⟩ | ⟨-, hb⟩ := hX _ _ _ hb
      · -- a written byte is in the page that was accessed
        have hv := byteAt_page hi.aligned (by rw [hw]; exact Option.some_ne_none _)
        rw [hpage v o ho] at hv
        subst hv
        have hij' := h.pages j i hvj hvi (htj.trans hti.symm) (hpj.trans hpi.symm)
        rw [hij'] at hij
        exact absurd rfl hij
      · exact h.resident t v j hT hj h0 o ho b hb
  · simp only [maps_performed] at hu
    have hne : ∀ j, m.maps t v j = true → j ≠ i := fun j hj hji => by
      have := hu j hj
      rw [hji, performed_pageTable, Function.update_self] at this
      cases this
    obtain ⟨rfl, hw⟩ | ⟨-, hb⟩ := hX _ _ _ hb
    · have hv := byteAt_page hi.aligned (by rw [hw]; exact Option.some_ne_none _)
      rw [hpage v o ho] at hv
      subst hv
      exact absurd rfl (hne i hi.maps)
    · refine h.backed t v hT (fun j hj => ?_) o ho b hb
      have := hu j hj
      rwa [performed_pageTable, Function.update_of_ne (hne j hj)] at this

end Coherent

/-! ## Page faults -/

/-- The page fault takes no zero from the frame that is not there: where the file has ended, the
frame that the page gets holds zeros. -/
def Clean (Fresh : Nat → Prop) (m : Memory) (a : Access) : Prop :=
  ∀ o < 128, Fresh (a.vpn * 128 + o) → m.writtenBack.stored (a.vpn * 128 + o) = none →
    m.mainMemory (m.givenFrame * 128 + (o : Nat)) = 0

/-- A page that is written back has a number that no other thread of interest uses. -/
def Private (T : Int → Nat → Prop) (m : Memory) : Prop :=
  m.firstUnused = none → ∀ t w, T t w → (m.pageTable m.oldest).virtualPage = (w : Nat) →
    t = (m.pageTable m.oldest).tid

theorem length_frame (f : Int) : (m.frame f).length = 128 := by simp [frame]

theorem getElem?_frame {f : Int} {o : Nat} (ho : o < 128) :
    (m.frame f)[o]? = some (m.mainMemory (f * 128 + (o : Nat))) := by
  rw [frame, List.getElem?_map, List.getElem?_range ho]
  rfl

namespace Coherent

theorem backs_writtenBack (h : m.Coherent T Fresh X) (hp : m.Private T)
    (hX : ∀ t p b, 2147483648 ≤ p → X t p = some b → b = 0 ∧ Fresh t p) {t : Int} {v : Nat}
    (hT : T t v)
    (hu : ∀ j, m.maps t v j = true → j ≠ m.given → (m.pageTable j).use = false)
    {o : Nat} (ho : o < 128) {b : Byte} (hb : X t (v * 128 + o) = some b) :
    Backs m.writtenBack (Fresh t (v * 128 + o)) (v * 128 + o) b := by
  obtain ⟨i, hi, hg, hui, -⟩ | ⟨hn, hg, huo, -⟩ := m.given_cases
  · rw [writtenBack, if_neg (by simp [hi])]
    refine h.backed t v hT (fun j hj => ?_) o ho b hb
    by_cases hji : j = i
    · rwa [hji]
    · exact hu j hj (hg ▸ hji)
  · obtain ⟨hvo, h0⟩ := h.framed.used _ huo
    obtain ⟨w, hw, hpo⟩ := h.framed.page _ hvo
    rw [writtenBack, if_pos hn, hpo]
    by_cases hm : m.maps t v m.oldest = true
    · -- the page that is written back
      obtain rfl : v = w := Int.ofNat_inj.mp ((maps_iff.mp hm).2.2.symm.trans hpo)
      by_cases hlow : v < 16777216
      · refine .inl ?_
        rw [BackingFile.stored_writeAt_self hlow (length_frame _) ho, getElem?_frame ho,
          h.resident t v _ hT hm h0 o ho b hb]
      · refine .inr ⟨if_neg (by omega), hX t _ b (by omega) hb⟩
    · have hne : v ≠ w := fun e => hm <| maps_iff.mpr
        ⟨(hp hn t v hT (by rw [hpo, e])).symm, hvo, by rw [hpo, e]⟩
      have hold := h.backed t v hT (fun j hj => by
        by_cases hjo : j = m.oldest
        · exact absurd (hjo ▸ hj) hm
        · exact hu j hj (hg ▸ hjo)) o ho b hb
      obtain he | ⟨hnone, hlen, hsome⟩ := @BackingFile.stored_writeAt_of_ne m.disk w
        (v * 128 + o) (m.frame (m.pageTable m.oldest).physicalPage) hw (length_frame _) (by omega)
      · rw [Backs, he]
        exact hold
      · obtain hs | ⟨-, rfl, hfr⟩ := hold
        · rw [hnone] at hs
          cases hs
        · refine .inl ?_
          rw [hsome, h.stale t _ hfr hlen]

theorem serviced (h : m.Coherent T Fresh X) (hf : m.Faults tid a) (hp : m.Private T)
    (hc : m.Clean (Fresh tid) a)
    (hX : ∀ t p b, 2147483648 ≤ p → X t p = some b → b = 0 ∧ Fresh t p) :
    (m.serviced tid a).Coherent T Fresh X := by
  have hnew : ∀ j, j ≠ m.given → (m.serviced tid a).pageTable j = m.pageTable j := fun j hj => by
    rw [serviced_pageTable, Function.update_of_ne hj]
  have hmaps : ∀ t v j, j ≠ m.given → (m.serviced tid a).maps t v j = m.maps t v j :=
    fun t v j hj => by rw [maps, maps, hnew j hj]
  refine ⟨h.framed.serviced, ?_, fun t v j hTv hj h0 o ho b hb => ?_,
    fun t v hTv hu o ho b hb => ?_, fun t p hfr hlen => ?_⟩
  · rw [serviced_pageTable]
    exact h.pages.give hf rfl rfl
  · rw [serviced_mainMemory]
    by_cases hjg : j = m.given
    · subst hjg
      rw [maps_iff, serviced_pageTable, Function.update_self] at hj
      obtain ⟨rfl, -, hv⟩ := hj
      obtain rfl : a.vpn = v := Int.ofNat_inj.mp hv
      have hb' := h.backs_writtenBack hp hX hTv
        (fun j hj _ => by rw [hf j] at hj; cases hj) ho hb
      have hframe : ((m.serviced tid a).pageTable m.given).physicalPage = m.givenFrame := by
        rw [serviced_pageTable, Function.update_self]
      rw [hframe, overwrite_add, BackingFile.getElem?_readAt (vpn_lt a) ho]
      obtain hs | ⟨hs, rfl, hfr⟩ := hb'
      · rw [hs]
        rfl
      · rw [hs]
        exact hc o ho hfr hs
    · rw [hnew j hjg] at h0 ⊢
      rw [hmaps t v j hjg] at hj
      have hne : (m.pageTable j).physicalPage ≠ m.givenFrame := fun e =>
        h.framed.givenFrame_ne (maps_iff.mp hj).2.1 hjg (e ▸ h0) e
      rw [overwrite_of_not (BackingFile.length_readAt_le ..) (by omega)]
      exact h.resident t v j hTv hj h0 o ho b hb
  · rw [serviced_disk]
    refine h.backs_writtenBack hp hX hTv (fun j hj hjg => ?_) ho hb
    have := hu j (by rw [hmaps t v j hjg]; exact hj)
    rwa [hnew j hjg] at this
  · rw [serviced_disk] at hlen ⊢
    rw [writtenBack] at hlen ⊢
    split at hlen
    · next hn =>
      obtain ⟨hlen, he⟩ := BackingFile.writeAt_stale hlen
      rw [if_pos hn, he]
      exact h.stale t p hfr hlen
    · next hn =>
      rw [if_neg hn]
      exact h.stale t p hfr hlen

end Coherent
end Memory
end Nachos
