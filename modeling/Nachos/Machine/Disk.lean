import Nachos.Machine.Interrupt
import Mathlib.Order.Bounds.Basic

/-! The physical disk of `disk.cc`: how long a request takes. The disk turns by one sector in
`RotationTime` ticks, the head moves by one track in `SeekTime` ticks, and a buffer holds what has
passed under the head since it came to its track. A request takes less than 32000 ticks
(`computeLatency_lt`), so that no sum of the source's `int`s overflows as long as
`totalTicks + 32000 < 2^31`. -/

namespace Nachos

def sectorsPerTrack : Int := 32
def rotationTime : Int := 500
def seekTime : Int := 500

/-- The sector of the last request, the time at which the track buffer began to fill, and whether a
request is under way. -/
structure Disk where
  lastSector : Fin 1024
  bufferInit : Int
  active : Bool

namespace Disk

def initial : Disk := ⟨0, 0, false⟩

/-- How long the head moves, and how long it then takes to the next boundary of a sector. -/
def timeToSeek (d : Disk) (totalTicks : Int) (newSector : Fin 1024) : Int × Int :=
  let newTrack := (newSector : Int).tdiv sectorsPerTrack
  let oldTrack := (d.lastSector : Int).tdiv sectorsPerTrack
  let seek := (newTrack - oldTrack).natAbs * seekTime
  let overTime := (totalTicks + seek).tmod rotationTime
  (seek, if overTime > 0 then rotationTime - overTime else 0)

/-- The sectors that pass until `target` comes, when `current` is under the head. -/
def moduloDiff (target current : Int) : Int :=
  (target.tmod sectorsPerTrack - current.tmod sectorsPerTrack + sectorsPerTrack).tmod
    sectorsPerTrack

def computeLatency (d : Disk) (totalTicks : Int) (newSector : Fin 1024) (writing : Bool) : Int :=
  let (seek, rotation) := d.timeToSeek totalTicks newSector
  let timeAfter := totalTicks + seek + rotation
  -- the track buffer has the sector
  if writing = false ∧ seek = 0 ∧ (timeAfter - d.bufferInit).tdiv rotationTime >
      moduloDiff newSector (d.bufferInit.tdiv rotationTime) then rotationTime
  else seek + (rotation + moduloDiff newSector (timeAfter.tdiv rotationTime) * rotationTime) +
    rotationTime

def updateLast (d : Disk) (totalTicks : Int) (newSector : Fin 1024) : Disk :=
  let (seek, rotate) := d.timeToSeek totalTicks newSector
  { d with
    bufferInit := if seek ≠ 0 then totalTicks + seek + rotate else d.bufferInit
    lastSector := newSector }

/-- `ReadRequest` and `WriteRequest`, apart from the transfer of the data. -/
def request {H ω : Type} (d : Disk) (done : H) (arg sectorNumber : Int) (writing : Bool)
    (s : Interrupt H ω) : Option (Disk × Interrupt H ω) :=
  if d.active then none
  else if h : 0 ≤ sectorNumber ∧ sectorNumber < 1024 then
    let sector : Fin 1024 := ⟨sectorNumber.toNat, by omega⟩
    let now := s.stats.totalTicks
    (s.schedule ⟨done, arg, d.computeLatency now sector writing, .diskInt⟩).map fun s' =>
      ({ d with active := true }.updateLast now sector, s')
  else none

/-! ## The first pass of a sector -/

/-- The times from `start` on at which the disk stands at the beginning of `sector`. -/
def passes (start sector : Int) : Set Int :=
  { t | start ≤ t ∧ rotationTime ∣ t ∧
    t / rotationTime % sectorsPerTrack = sector % sectorsPerTrack }

def seekTicks (d : Disk) (newSector : Fin 1024) : Int :=
  |(newSector : Int) / sectorsPerTrack - (d.lastSector : Int) / sectorsPerTrack| * seekTime

variable {d : Disk} {now : Int} {newSector : Fin 1024}

theorem seekTicks_nonneg (d : Disk) (newSector : Fin 1024) : 0 ≤ d.seekTicks newSector := by
  unfold seekTicks seekTime
  have := abs_nonneg
    ((newSector : Int) / sectorsPerTrack - (d.lastSector : Int) / sectorsPerTrack)
  omega

theorem timeToSeek_fst (d : Disk) (now : Int) (newSector : Fin 1024) :
    (d.timeToSeek now newSector).1 = d.seekTicks newSector := by
  have hnew := Int.tdiv_eq_ediv_of_nonneg (b := sectorsPerTrack) (Int.natCast_nonneg newSector)
  have hold := Int.tdiv_eq_ediv_of_nonneg (b := sectorsPerTrack) (Int.natCast_nonneg d.lastSector)
  unfold timeToSeek seekTicks
  simp only [hnew, hold, Int.natCast_natAbs]

theorem timeToSeek_snd (d : Disk) (newSector : Fin 1024) (hnow : 0 ≤ now) :
    ∃ q, now + d.seekTicks newSector + (d.timeToSeek now newSector).2 = q * rotationTime ∧
      0 ≤ (d.timeToSeek now newSector).2 ∧
      ∀ k, now + d.seekTicks newSector ≤ k * rotationTime → q ≤ k := by
  have hseek := d.seekTicks_nonneg newSector
  have hfst := timeToSeek_fst d now newSector
  have hsnd : (d.timeToSeek now newSector).2 =
      if (now + d.seekTicks newSector) % rotationTime > 0 then
        rotationTime - (now + d.seekTicks newSector) % rotationTime else 0 := by
    rw [← hfst, ← Int.tmod_eq_emod_of_nonneg (by rw [hfst]; omega)]
    rfl
  rw [hsnd]
  unfold rotationTime
  refine ⟨(now + d.seekTicks newSector + 499) / 500, ?_, ?_, fun k hk => ?_⟩
  · split <;> omega
  · split <;> omega
  · omega

theorem moduloDiff_eq {target current : Int} (ht : 0 ≤ target) (hc : 0 ≤ current) :
    moduloDiff target current = (target - current) % sectorsPerTrack := by
  unfold moduloDiff sectorsPerTrack
  rw [Int.tmod_eq_emod_of_nonneg ht, Int.tmod_eq_emod_of_nonneg hc,
    Int.tmod_eq_emod_of_nonneg (by omega)]
  omega

theorem computeLatency_writing (d : Disk) (now : Int) (newSector : Fin 1024) :
    d.computeLatency now newSector true = d.seekTicks newSector +
      ((d.timeToSeek now newSector).2 + moduloDiff newSector
        ((now + d.seekTicks newSector + (d.timeToSeek now newSector).2).tdiv rotationTime) *
          rotationTime) + rotationTime := by
  unfold computeLatency
  simp only [timeToSeek_fst, Bool.true_eq_false, false_and, if_false]

theorem computeLatency_reading (d : Disk) (now : Int) (newSector : Fin 1024) :
    d.computeLatency now newSector false = rotationTime ∨
      d.computeLatency now newSector false = d.computeLatency now newSector true := by
  rw [computeLatency_writing]
  unfold computeLatency
  simp only [timeToSeek_fst, true_and]
  split
  · exact .inl rfl
  · exact .inr rfl

theorem isLeast_passes (d : Disk) (newSector : Fin 1024) (hnow : 0 ≤ now) :
    IsLeast (passes (now + d.seekTicks newSector) newSector)
      (d.computeLatency now newSector true + now - rotationTime) := by
  have hseek := d.seekTicks_nonneg newSector
  obtain ⟨q, hq, hrot, hleast⟩ := timeToSeek_snd d newSector hnow
  have hq0 : 0 ≤ q := by
    unfold rotationTime at hq
    omega
  have hdiv : (q * rotationTime).tdiv rotationTime = q :=
    Int.mul_tdiv_cancel q (by decide)
  have hdiff := moduloDiff_eq (Int.natCast_nonneg (newSector : Nat)) hq0
  rw [computeLatency_writing, hq, hdiv, hdiff]
  unfold passes rotationTime sectorsPerTrack at *
  constructor
  · refine ⟨by omega, by omega, by omega⟩
  · rintro t ⟨hstart, ⟨k, rfl⟩, hmod⟩
    -- the pass at boundary `k` is not before `q`, and the difference is a multiple of 32
    have hk := hleast k (by omega)
    omega

theorem seekTicks_le (d : Disk) (newSector : Fin 1024) : d.seekTicks newSector ≤ 15500 := by
  unfold seekTicks seekTime sectorsPerTrack
  have hnew := newSector.isLt
  have hold := d.lastSector.isLt
  have habs : |((newSector : Nat) : Int) / 32 - ((d.lastSector : Nat) : Int) / 32| ≤ 31 :=
    abs_le.mpr ⟨by omega, by omega⟩
  omega

theorem computeLatency_lt (d : Disk) (newSector : Fin 1024) (hnow : 0 ≤ now) (writing : Bool) :
    d.computeLatency now newSector writing < 32000 := by
  have hseek := d.seekTicks_nonneg newSector
  have hseek' := d.seekTicks_le newSector
  have hpass := isLeast_passes d newSector hnow
  have hread := computeLatency_reading d now newSector
  -- the boundary after the seek, and from there the sectors until the right one
  let q := (now + d.seekTicks newSector + 499) / 500
  have hnext : (q + (newSector - q) % 32) * 500 ∈
      passes (now + d.seekTicks newSector) newSector := by
    unfold passes rotationTime sectorsPerTrack
    refine ⟨by omega, by omega, by omega⟩
  have hle := hpass.2 hnext
  unfold rotationTime at *
  cases writing <;> omega

/-- A write takes until its sector has passed for the first time after the seek. A read takes at
least the time of one sector and at most as long as a write, so that requests are scheduled for
later. -/
theorem latency_firstPass (d : Disk) (now : Int) (newSector : Fin 1024) (hnow : 0 ≤ now) :
    (∃ t, IsLeast (passes (now + d.seekTicks newSector) newSector) t ∧
      d.computeLatency now newSector true = t + rotationTime - now) ∧
    rotationTime ≤ d.computeLatency now newSector false ∧
    d.computeLatency now newSector false ≤ d.computeLatency now newSector true ∧
    ∀ {H ω : Type} (done : H) (arg : Int) (writing : Bool) (s : Interrupt H ω),
      s.stats.totalTicks = now → d.active = false →
        (d.request done arg newSector writing s).isSome := by
  have hpass := isLeast_passes d newSector hnow
  have hpos := hpass.1.1
  have hseek := d.seekTicks_nonneg newSector
  have hwrite : rotationTime ≤ d.computeLatency now newSector true := by omega
  have hread := computeLatency_reading d now newSector
  refine ⟨⟨_, hpass, by omega⟩, by omega, by omega, ?_⟩
  intro H ω done arg writing s hs ha
  have hlater : 0 < d.computeLatency now newSector writing := by
    have hr : 0 < rotationTime := by decide
    cases writing <;> omega
  have hsector : (⟨((newSector : Nat) : Int).toNat, by omega⟩ : Fin 1024) = newSector :=
    Fin.ext (Int.toNat_natCast _)
  have hrange : (0 : Int) ≤ (newSector : Nat) ∧ ((newSector : Nat) : Int) < 1024 := by omega
  unfold request
  rw [ha, if_neg Bool.false_ne_true, dif_pos hrange]
  simp only [hsector, hs, Interrupt.schedule, if_pos hlater, Option.map_some, Option.isSome_some]

/-- A write to sector 40 while the head is over track 0, at time 1250: the head is there at 1750,
and sector 40 comes at 4000. -/
theorem latency_firstPass_forty :
    ∃ t, IsLeast (passes 1750 40) t ∧ Disk.initial.computeLatency 1250 40 true = t + 500 - 1250 :=
  (latency_firstPass Disk.initial 1250 40 (by decide)).1

end Disk
end Nachos
