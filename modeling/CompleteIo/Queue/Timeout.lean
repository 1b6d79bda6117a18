import CompleteIo.Lib.FixedWidth

namespace CompleteIo.Timeout

structure Duration where
  secs : ℕ
  nanos : ℕ
  secs_lt : secs < 2 ^ 64
  nanos_lt : nanos < 1000000000
  deriving DecidableEq

def Duration.asNanos (d : Duration) : ℕ := d.secs * 1000000000 + d.nanos

def Duration.asMillis (d : Duration) : ℕ := d.secs * 1000 + d.nanos / 1000000

def Duration.AtLeastMillis (d : Duration) (ms : ℤ) : Prop := ms * 1000000 ≤ d.asNanos

namespace Epoll

/-- The sum, in `u32`, of the seconds in milliseconds and the rest. -/
def sumMs (d : Duration) : Option ℕ := do
  let ms ← checked 32 (truncateTo 32 d.secs * 1000)
  checked 32 (ms + d.nanos / 1000000)

/-- `timeout_ms` of `Inner::poll`, or none where the `u32` arithmetic overflows. -/
def timeoutMs : Option Duration → Option ℤ
  | some timeout => (sumMs timeout).map (asSigned 32)
  | none => some (-1)

/-- A finite `max_wait` gives a finite timeout that does not exceed it. -/
def Bounded (d : Duration) : Prop :=
  ∃ ms, timeoutMs (some d) = some ms ∧ 0 ≤ ms ∧ d.AtLeastMillis ms

end Epoll

namespace Iocp

def INFINITE : ℕ := 2 ^ 32 - 1

/-- `ms_timeout` of `poll_iocp`, or none where the arithmetic overflows. -/
def msTimeout : Option Duration → Option ℕ
  | some timeout => do
    let ms ← checked 64 (timeout.secs * 1000)
    checked 32 (truncateTo 32 ms + timeout.nanos / 1000000)
  | none => some INFINITE

def Bounded (d : Duration) : Prop :=
  ∃ ms, msTimeout (some d) = some ms ∧ ms ≠ INFINITE ∧ d.AtLeastMillis ms

end Iocp

variable {d : Duration} {n : ℕ}

theorem sumMs_eq_some_iff : Epoll.sumMs d = some n ↔
    truncateTo 32 d.secs * 1000 + d.nanos / 1000000 = n ∧ n < 2 ^ 32 := by
  simp only [Epoll.sumMs, Option.bind_eq_bind, Option.bind_eq_some_iff, checked_eq_some_iff]
  constructor
  · rintro ⟨ms, ⟨rfl, -⟩, rfl, h⟩
    exact ⟨rfl, h⟩
  · rintro ⟨rfl, h⟩
    exact ⟨_, ⟨rfl, Nat.lt_of_le_of_lt (Nat.le_add_right ..) h⟩, rfl, h⟩

theorem msTimeout_eq_some_iff : Iocp.msTimeout (some d) = some n ↔
    d.secs * 1000 < 2 ^ 64 ∧
      truncateTo 32 (d.secs * 1000) + d.nanos / 1000000 = n ∧ n < 2 ^ 32 := by
  simp only [Iocp.msTimeout, Option.bind_eq_bind, Option.bind_eq_some_iff, checked_eq_some_iff]
  constructor
  · rintro ⟨ms, ⟨rfl, hsecs⟩, rfl, h⟩
    exact ⟨hsecs, rfl, h⟩
  · rintro ⟨hsecs, rfl, h⟩
    exact ⟨_, ⟨rfl, hsecs⟩, rfl, h⟩

/-- The timeout is rounded down. -/
theorem atLeastMillis_of_le (h : n ≤ d.asMillis) : d.AtLeastMillis n := by
  unfold Duration.asMillis at h
  unfold Duration.AtLeastMillis Duration.asNanos
  omega

theorem epoll_bounded_iff : Epoll.Bounded d ↔
    truncateTo 32 d.secs * 1000 + d.nanos / 1000000 < 2 ^ 31 := by
  unfold Epoll.Bounded Epoll.timeoutMs
  constructor
  · rintro ⟨ms, hms, hnonneg, -⟩
    obtain ⟨n, hn, rfl⟩ := Option.map_eq_some_iff.mp hms
    obtain ⟨rfl, hlt⟩ := sumMs_eq_some_iff.mp hn
    exact (asSigned_nonneg_iff hlt).mp hnonneg
  · intro h
    have hsum := sumMs_eq_some_iff.mpr ⟨rfl, Nat.lt_trans h (by decide)⟩
    refine ⟨_, Option.map_eq_some_iff.mpr ⟨_, hsum, rfl⟩, ?_, ?_⟩
    · rw [asSigned_of_lt h]
      exact Int.natCast_nonneg _
    · rw [asSigned_of_lt h]
      have hsecs : truncateTo 32 d.secs ≤ d.secs := truncateTo_le
      exact atLeastMillis_of_le (by unfold Duration.asMillis; omega)

theorem iocp_bounded_iff : Iocp.Bounded d ↔ d.secs * 1000 < 2 ^ 64 ∧
    truncateTo 32 (d.secs * 1000) + d.nanos / 1000000 < Iocp.INFINITE := by
  unfold Iocp.Bounded Iocp.INFINITE
  constructor
  · rintro ⟨ms, hms, hfinite, -⟩
    obtain ⟨hsecs, rfl, hlt⟩ := msTimeout_eq_some_iff.mp hms
    exact ⟨hsecs, by omega⟩
  · rintro ⟨hsecs, h⟩
    refine ⟨_, msTimeout_eq_some_iff.mpr ⟨hsecs, rfl, by omega⟩, by omega, ?_⟩
    have hle : truncateTo 32 (d.secs * 1000) ≤ d.secs * 1000 := truncateTo_le
    exact atLeastMillis_of_le (by unfold Duration.asMillis; omega)

/-- Below this bound no cast of the conversion for epoll loses anything. -/
theorem timeoutMs_of_lt (h : d.secs < 2147483) :
    Epoll.timeoutMs (some d) = some (d.asMillis : ℤ) := by
  have hnanos := d.nanos_lt
  have hsecs : truncateTo 32 d.secs = d.secs := truncateTo_of_lt (by omega)
  have hsum : Epoll.sumMs d = some d.asMillis :=
    sumMs_eq_some_iff.mpr ⟨by rw [hsecs, Duration.asMillis], by unfold Duration.asMillis; omega⟩
  rw [Epoll.timeoutMs, hsum, Option.map_some,
    asSigned_of_lt (by unfold Duration.asMillis; omega)]

/-- Exactly where a finite `max_wait` is passed on as a finite timeout that does not exceed it:
epoll truncates the seconds and turns the upper half of the range negative, and the completion
port truncates the milliseconds. -/
theorem timeout_bounded_iff (d : Duration) :
    (Epoll.Bounded d ↔ truncateTo 32 d.secs * 1000 + d.nanos / 1000000 < 2 ^ 31) ∧
    (Iocp.Bounded d ↔ d.secs * 1000 < 2 ^ 64 ∧
      truncateTo 32 (d.secs * 1000) + d.nanos / 1000000 < Iocp.INFINITE) :=
  ⟨epoll_bounded_iff, iocp_bounded_iff⟩

/-- Thirty days make a negative timeout for epoll, and sixty days overflow; 2^32 - 1 milliseconds
are `INFINITE` to the completion port, and one more overflows. -/
theorem long_timeouts_unbounded :
    Epoll.timeoutMs (some ⟨2592000, 0, by decide, by decide⟩) = some (-1702967296) ∧
    Epoll.timeoutMs (some ⟨5184000, 0, by decide, by decide⟩) = none ∧
    Iocp.msTimeout (some ⟨4294967, 295000000, by decide, by decide⟩) = some Iocp.INFINITE ∧
    Iocp.msTimeout (some ⟨4294967, 296000000, by decide, by decide⟩) = none ∧
    ¬ ∀ d : Duration, Epoll.Bounded d ∧ Iocp.Bounded d := by
  have hepoll : Epoll.timeoutMs (some ⟨2592000, 0, by decide, by decide⟩) = some (-1702967296) := by
    decide
  refine ⟨hepoll, by decide, by decide, by decide, fun h => ?_⟩
  obtain ⟨ms, hms, hnonneg, -⟩ := (h ⟨2592000, 0, by decide, by decide⟩).1
  obtain rfl := Option.some.inj (hepoll.symm.trans hms)
  exact absurd hnonneg (by decide)

end CompleteIo.Timeout
