import Pynvme.Ioworker.State
import Mathlib.Data.Rat.Cast.Order
import Mathlib.Tactic.Linarith

/-!
# The clock of the driver

The driver reads the time of the day once (`timeval_init`), and then the monotonic clock,
to which it adds the difference (`timeval_gettimeofday`). The nanoseconds are turned to
microseconds by a shift of 10 bits, that is, they are divided by 1024: a second of the
monotonic clock has 976562 microseconds, and the rest are left out when the next second
begins.

The clock does not go back (`driver_clock_monotone`). A latency is right up to 3% and 2
microseconds, unless it lies across the end of a second, of which it takes the gap
(`latency_tracks_iff`).
-/

namespace Pynvme

/-- `struct timespec`. -/
structure Timespec where
  sec : Int
  nsec : Int
  deriving DecidableEq

namespace Timespec

/-- The nanoseconds are less than a second, as `clock_gettime` gives them. -/
def Normal (t : Timespec) : Prop := 0 ≤ t.nsec ∧ t.nsec < 1000000000

instance (t : Timespec) : Decidable t.Normal := inferInstanceAs (Decidable (_ ∧ _))

/-- The nanoseconds of a time. -/
def ns (t : Timespec) : Int := t.sec * 1000000000 + t.nsec

end Timespec

/-- `timeval_init`: the difference `tv_diff`, from the two clocks. -/
def timevalInit (tv : Timeval) (ts : Timespec) : Timespec where
  sec := tv.sec - ts.sec - 1
  nsec := 2 ^ 30 + tv.usec * 1000 - ts.nsec

/-- `timeval_gettimeofday`, when the monotonic clock reads `ts`. -/
def timevalGettimeofday (tvDiff ts : Timespec) : Timeval :=
  let sec := ts.sec + tvDiff.sec
  let usec := (ts.nsec + tvDiff.nsec) >>> (10 : Nat)
  if usec > 1000000 then ⟨sec + usec / 1000000, usec % 1000000⟩ else ⟨sec, usec⟩

/-! ### Readings -/

variable {tv : Timeval} {ts t t₁ t₂ d : Timespec}

/-- The bounds of the difference. -/
theorem timevalInit_nsec (htv : tv.Normal) (hts : ts.Normal) :
    73741825 ≤ (timevalInit tv ts).nsec ∧ (timevalInit tv ts).nsec ≤ 2073740824 := by
  obtain ⟨hu, hu'⟩ := htv
  obtain ⟨hn, hn'⟩ := hts
  simp only [timevalInit]
  omega

/-- The carry keeps the microseconds. -/
theorem timevalGettimeofday_us (d t : Timespec) :
    (timevalGettimeofday d t).us = (t.sec + d.sec) * 1000000 + (t.nsec + d.nsec) / 1024 := by
  rw [timevalGettimeofday, Int.shiftRight_eq_div_pow]
  split_ifs <;> simp only [Timeval.us] <;> omega

/-- The microseconds of a reading are at most a second. -/
theorem timevalGettimeofday_usec (hd : 0 ≤ d.nsec) (ht : t.Normal) :
    0 ≤ (timevalGettimeofday d t).usec ∧ (timevalGettimeofday d t).usec ≤ 1000000 := by
  obtain ⟨hn, -⟩ := ht
  rw [timevalGettimeofday, Int.shiftRight_eq_div_pow]
  split_ifs <;> dsimp only <;> omega

/-! ### The order -/

/-- A reading with fewer microseconds is not later, also if those of the later one are a
    full second. -/
theorem Timeval.gt_eq_false_of_us_lt {a b : Timeval} (ha : 0 ≤ a.usec) (hb : b.usec ≤ 1000000)
    (h : a.us < b.us) : a.gt b = false := by
  rw [Bool.eq_false_iff, ne_eq, Timeval.gt_iff]
  simp only [Timeval.us] at h
  omega

theorem timevalGettimeofday_us_le (h₁ : t₁.Normal) (h₂ : t₂.Normal) (h : t₁.ns ≤ t₂.ns) :
    (timevalGettimeofday d t₁).us ≤ (timevalGettimeofday d t₂).us := by
  obtain ⟨hn₁, hn₁'⟩ := h₁
  obtain ⟨hn₂, hn₂'⟩ := h₂
  rw [timevalGettimeofday_us, timevalGettimeofday_us]
  simp only [Timespec.ns] at h
  omega

/-- Two readings with the same microseconds are the same: they are of one second, since a
    second of the monotonic clock has fewer than a million of them. -/
theorem timevalGettimeofday_eq_of_us_eq (h₁ : t₁.Normal) (h₂ : t₂.Normal)
    (h : (timevalGettimeofday d t₁).us = (timevalGettimeofday d t₂).us) :
    timevalGettimeofday d t₁ = timevalGettimeofday d t₂ := by
  obtain ⟨hn₁, hn₁'⟩ := h₁
  obtain ⟨hn₂, hn₂'⟩ := h₂
  rw [timevalGettimeofday_us, timevalGettimeofday_us] at h
  have hsec : t₁.sec = t₂.sec := by omega
  have husec : (t₁.nsec + d.nsec) / 1024 = (t₂.nsec + d.nsec) / 1024 := by omega
  simp only [timevalGettimeofday, Int.shiftRight_eq_div_pow, hsec]
  rw [show ((2 ^ 10 : Nat) : Int) = 1024 from rfl, husec]

/-- The clock does not go back: a later reading is not before an earlier one, its
    microseconds are at least as many, and their difference is not negative. -/
theorem driver_clock_monotone (htv : tv.Normal) (hts : ts.Normal) (h₁ : t₁.Normal)
    (h₂ : t₂.Normal) (h : t₁.ns ≤ t₂.ns) :
    let earlier := timevalGettimeofday (timevalInit tv ts) t₁
    let later := timevalGettimeofday (timevalInit tv ts) t₂
    earlier.gt later = false ∧ earlier.us ≤ later.us ∧
      0 ≤ (later.sub earlier).sec ∧ 0 ≤ (later.sub earlier).usec := by
  intro earlier later
  have hd : 0 ≤ (timevalInit tv ts).nsec := by
    have := (timevalInit_nsec htv hts).1
    omega
  have hu₁ : 0 ≤ earlier.usec ∧ earlier.usec ≤ 1000000 := timevalGettimeofday_usec hd h₁
  have hu₂ : 0 ≤ later.usec ∧ later.usec ≤ 1000000 := timevalGettimeofday_usec hd h₂
  have hle : earlier.us ≤ later.us := timevalGettimeofday_us_le h₁ h₂ h
  have hgt : earlier.gt later = false := by
    rcases Int.lt_or_eq_of_le hle with hlt | heq
    · exact Timeval.gt_eq_false_of_us_lt hu₁.1 hu₂.2 hlt
    · have hsame : earlier = later := timevalGettimeofday_eq_of_us_eq h₁ h₂ heq
      rw [hsame, Timeval.gt, if_pos rfl]
      exact decide_eq_false (Int.lt_irrefl _)
  refine ⟨hgt, hle, ?_⟩
  rw [Bool.eq_false_iff, ne_eq, Timeval.gt_iff] at hgt
  rw [Timeval.sub]
  split_ifs <;> dsimp only <;> omega

/-- The readings before and after the end of a second. -/
theorem driver_clock_monotone_second :
    (timevalGettimeofday (timevalInit ⟨1000, 999999⟩ ⟨5, 0⟩) ⟨5, 999999999⟩).gt
      (timevalGettimeofday (timevalInit ⟨1000, 999999⟩ ⟨5, 0⟩) ⟨6, 0⟩) = false :=
  (driver_clock_monotone (by decide) (by decide) (by decide) (by decide) (by decide)).1

/-! ### Latencies -/

/-- The latency that is computed from two readings. -/
def latencyUs (d t₁ t₂ : Timespec) : Nat :=
  ((timevalGettimeofday d t₂).sub (timevalGettimeofday d t₁)).toUs

/-- The latency is the time between the readings, up to 3% and 2 microseconds. -/
def LatencyTracks (d t₁ t₂ : Timespec) : Prop :=
  |(latencyUs d t₁ t₂ : ℚ) - (t₂.ns - t₁.ns : Int) / 1000| ≤
    3 / 100 * ((t₂.ns - t₁.ns : Int) / 1000) + 2

/-- The latency is that of the microseconds of the readings, which fits in 32 bits. -/
theorem latencyUs_eq (h₁ : t₁.Normal) (h₂ : t₂.Normal) (h : t₁.ns ≤ t₂.ns)
    (hshort : t₂.ns - t₁.ns < 4000 * 1000000000) :
    (latencyUs d t₁ t₂ : Int) = (t₂.sec - t₁.sec) * 1000000 +
      ((t₂.nsec + d.nsec) / 1024 - (t₁.nsec + d.nsec) / 1024) := by
  have hle := timevalGettimeofday_us_le (d := d) h₁ h₂ h
  have hsub := Timeval.sub_us (timevalGettimeofday d t₂) (timevalGettimeofday d t₁)
  obtain ⟨hn₁, hn₁'⟩ := h₁
  obtain ⟨hn₂, hn₂'⟩ := h₂
  simp only [timevalGettimeofday_us] at hsub hle
  simp only [Timespec.ns] at h hshort
  rw [latencyUs, Timeval.toUs]
  rw [Timeval.us] at hsub
  omega

/-- In nanoseconds, the bounds are integers. -/
theorem latencyTracks_iff_int : LatencyTracks d t₁ t₂ ↔
    -(3 * (t₂.ns - t₁.ns) + 200000) ≤ 100 * (1000 * (latencyUs d t₁ t₂ : Int) - (t₂.ns - t₁.ns)) ∧
      100 * (1000 * (latencyUs d t₁ t₂ : Int) - (t₂.ns - t₁.ns)) ≤
        3 * (t₂.ns - t₁.ns) + 200000 := by
  rw [LatencyTracks, abs_le]
  generalize latencyUs d t₁ t₂ = l
  generalize t₂.ns - t₁.ns = e
  rw [← @Int.cast_le ℚ, ← @Int.cast_le ℚ]
  push_cast
  constructor
  · rintro ⟨hlo, hhi⟩
    constructor <;> linarith
  · rintro ⟨hlo, hhi⟩
    constructor <;> linarith

/-- Whatever the clocks read at first, a latency of less than 4000 seconds is right up to 3%
    and 2 microseconds if and only if the readings are not of two successive seconds, or the
    nanoseconds of the second reading are not far below those of the first. -/
theorem latency_tracks_iff (tv : Timeval) (ts : Timespec) (h₁ : t₁.Normal) (h₂ : t₂.Normal)
    (h : t₁.ns ≤ t₂.ns) (hshort : t₂.ns - t₁.ns < 4000 * 1000000000) :
    LatencyTracks (timevalInit tv ts) t₁ t₂ ↔ (t₂.sec = t₁.sec + 1 →
      103 * (t₁.nsec - t₂.nsec) ≤
        100000 * ((t₁.nsec + (timevalInit tv ts).nsec) / 1024 -
          (t₂.nsec + (timevalInit tv ts).nsec) / 1024) + 3000200000) := by
  rw [latencyTracks_iff_int, latencyUs_eq h₁ h₂ h hshort]
  generalize timevalInit tv ts = d
  obtain ⟨hn₁, hn₁'⟩ := h₁
  obtain ⟨hn₂, hn₂'⟩ := h₂
  simp only [Timespec.ns] at h hshort ⊢
  rcases (by omega : t₂.sec = t₁.sec ∨ t₂.sec = t₁.sec + 1 ∨ t₁.sec + 2 ≤ t₂.sec) with
    hsec | hsec | hsec
  -- within a second the loss is 24 of 1024 parts
  · rw [hsec] at h ⊢
    omega
  · rw [hsec] at h ⊢
    omega
  -- the gap is less than 3% of a second
  · refine iff_of_true ⟨?_, ?_⟩ fun hne => ?_ <;> omega

/-- Half a second is measured well within a second. -/
theorem latency_tracks_within_second :
    LatencyTracks (timevalInit ⟨1000, 0⟩ ⟨3, 0⟩) ⟨5, 0⟩ ⟨5, 500000000⟩ :=
  (latency_tracks_iff ⟨1000, 0⟩ ⟨3, 0⟩ (by decide) (by decide) (by decide) (by decide)).2
    (by decide)

/-- A nanosecond at the end of a second is measured as 23438 microseconds. -/
theorem latency_not_tracks :
    (⟨1000, 0⟩ : Timeval).Normal ∧ (⟨3, 0⟩ : Timespec).Normal ∧
    (⟨5, 999999999⟩ : Timespec).Normal ∧ (⟨6, 0⟩ : Timespec).Normal ∧
    (⟨6, 0⟩ : Timespec).ns - (⟨5, 999999999⟩ : Timespec).ns = 1 ∧
    latencyUs (timevalInit ⟨1000, 0⟩ ⟨3, 0⟩) ⟨5, 999999999⟩ ⟨6, 0⟩ = 23438 ∧
    ¬LatencyTracks (timevalInit ⟨1000, 0⟩ ⟨3, 0⟩) ⟨5, 999999999⟩ ⟨6, 0⟩ := by
  refine ⟨by decide, by decide, by decide, by decide, by decide, by decide, ?_⟩
  rw [latencyTracks_iff_int]
  decide

end Pynvme
