import Mathlib.Algebra.Order.Ring.Defs
import Mathlib.Data.Nat.Cast.Order.Ring
import CompleteIo.Lib.Machine
import CompleteIo.Queue.Timeout

namespace CompleteIo.TurnTimeout

open Timeout

/-- What `epoll_wait` came back with; `failed` is any errno but `EINTR`. -/
inductive WaitResult
  | interrupted
  | events (count : ℕ)
  | failed (errno : ℕ)

structure Call (K : Type*) where
  blocked : K
  result : WaitResult

/-- A call of `Inner::poll` without an interrupt; the times are in nanoseconds. -/
structure State (K : Type*) where
  elapsed : K
  returned : Option (Except ℕ ℕ)

variable {K : Type*} [Semiring K] [LinearOrder K]

/-- The loop continues after `EINTR` and returns in every other case. -/
def afterWait : WaitResult → Option (Except ℕ ℕ)
  | .interrupted => none
  | .events count => some (.ok count)
  | .failed errno => some (.error errno)

/-- A call blocks for no longer than the timeout it is passed, if that is not negative. -/
def Blocks (timeoutMs : ℤ) (blocked : K) : Prop :=
  0 ≤ blocked ∧ (0 ≤ timeoutMs → blocked ≤ (timeoutMs.toNat * 1000000 : ℕ))

instance (timeoutMs : ℤ) (blocked : K) : Decidable (Blocks timeoutMs blocked) :=
  inferInstanceAs (Decidable (_ ∧ _))

/-- A round of the loop; `timeout_ms` is computed before it, once and for all. -/
def step (maxWait : Option Duration) (s : State K) (call : Call K) : Option (State K) :=
  match s.returned, Epoll.timeoutMs maxWait with
  | none, some timeoutMs =>
    if Blocks timeoutMs call.blocked then
      some ⟨s.elapsed + call.blocked, afterWait call.result⟩
    else none
  | _, _ => none

def initial : State K := ⟨0, none⟩

def machine (maxWait : Option Duration) : Machine (State K) (Call K) where
  init s := s = initial
  step := step maxWait

def Call.interruptedTime (call : Call K) : K :=
  match call.result with
  | .interrupted => call.blocked
  | .events _ | .failed _ => 0

def interruptedTime (calls : List (Call K)) : K := (calls.map Call.interruptedTime).sum

/-- The timeout, in nanoseconds, that every call is passed. -/
def timeoutNanos (d : Duration) : ℕ := d.asMillis * 1000000

variable {d : Duration} {s t : State K} {call : Call K}

theorem blocks_asMillis_iff {blocked : K} : Blocks (d.asMillis : ℤ) blocked ↔
    0 ≤ blocked ∧ blocked ≤ timeoutNanos d := by
  simp [Blocks, timeoutNanos]

theorem step_cases (hd : d.secs < 2147483) (hs : step (some d) s call = some t) :
    s.returned = none ∧ (0 ≤ call.blocked ∧ call.blocked ≤ timeoutNanos d) ∧
      t = ⟨s.elapsed + call.blocked, afterWait call.result⟩ := by
  simp only [step, timeoutMs_of_lt hd] at hs
  split at hs
  · rename_i hreturned htimeout
    obtain rfl := Option.some.inj htimeout
    obtain ⟨hblocks, hs⟩ := Option.ite_none_right_eq_some.mp hs
    exact ⟨hreturned, blocks_asMillis_iff.mp hblocks, (Option.some.inj hs).symm⟩
  · cases hs

omit [LinearOrder K] in
theorem interruptedTime_cons {calls : List (Call K)} :
    interruptedTime (call :: calls) = call.interruptedTime + interruptedTime calls := by
  simp [interruptedTime]

variable [IsStrictOrderedRing K]

/-- How far a turn has come after some calls that began at the given time: within the loop all of
them were interrupted, and outside it the last one was not. -/
structure After (d : Duration) (start : K) (calls : List (Call K)) (t : State K) : Prop where
  within : t.returned = none → t.elapsed = start + interruptedTime calls
  bound : t.elapsed ≤ start + interruptedTime calls + timeoutNanos d

omit [IsStrictOrderedRing K] in
theorem not_returned (hs : s.returned ≠ none) {calls : List (Call K)}
    (hrun : (machine (some d)).exec s calls = some t) : calls = [] := by
  cases calls with
  | nil => rfl
  | cons call calls =>
    obtain ⟨u, hu, -⟩ := Option.bind_eq_some_iff.mp hrun
    simp only [machine, step] at hu
    split at hu
    · next hreturned _ => exact absurd hreturned hs
    · cases hu

/-- The last call of a turn adds no more than the timeout. -/
theorem after_last (hblocked : call.blocked ≤ timeoutNanos d) {r : Except ℕ ℕ}
    (hresult : afterWait call.result = some r) :
    After d s.elapsed [call] ⟨s.elapsed + call.blocked, some r⟩ := by
  have hzero : interruptedTime [call] = 0 := by
    cases hcall : call.result <;>
      simp_all [interruptedTime, Call.interruptedTime, afterWait]
  refine ⟨fun hnone => absurd hnone (by simp), ?_⟩
  rw [hzero, add_zero]
  exact add_le_add_right hblocked _

theorem exec_after (hd : d.secs < 2147483) {calls : List (Call K)}
    (hrun : (machine (some d)).exec s calls = some t) : After d s.elapsed calls t := by
  induction calls generalizing s with
  | nil =>
    obtain rfl := Option.some.inj hrun
    exact ⟨fun _ => by simp [interruptedTime],
      by simp [interruptedTime, Nat.cast_nonneg (α := K)]⟩
  | cons call calls ih =>
    obtain ⟨u, hu, hrun⟩ := Option.bind_eq_some_iff.mp hrun
    obtain ⟨-, ⟨-, hblocked⟩, rfl⟩ := step_cases hd hu
    cases hresult : afterWait call.result with
    | some r =>
      rw [hresult] at hrun
      obtain rfl := not_returned (by simp) hrun
      obtain rfl := Option.some.inj hrun
      exact after_last hblocked hresult
    | none =>
      -- The call was interrupted, and the loop goes on with the whole timeout.
      have htime : call.interruptedTime = call.blocked := by
        cases hcall : call.result <;> simp_all [Call.interruptedTime, afterWait]
      have htotal : s.elapsed + interruptedTime (call :: calls) =
          s.elapsed + call.blocked + interruptedTime calls := by
        rw [interruptedTime_cons, htime, add_assoc]
      obtain ⟨hwithin, hbound⟩ := ih hrun
      exact ⟨fun hreturned => htotal ▸ hwithin hreturned, htotal ▸ hbound⟩

/-- A turn whose interrupted calls leave the timeout of one call keeps to `max_wait`, and one that
is still in its loop is sure to keep to it only then. -/
theorem elapsed_le_of_interruptedTime (d : Duration) (hd : d.secs < 2147483)
    (calls : List (Call K)) (s : State K)
    (hrun : (machine (some d)).exec initial calls = some s) :
    (interruptedTime calls + timeoutNanos d ≤ d.asNanos → s.elapsed ≤ d.asNanos) ∧
    (s.returned = none →
      ((∀ call t, (machine (some d)).step s call = some t → t.elapsed ≤ d.asNanos) ↔
        interruptedTime calls + timeoutNanos d ≤ (d.asNanos : K))) := by
  obtain ⟨hwithin, hbound⟩ := exec_after hd hrun
  simp only [initial, zero_add] at hwithin hbound
  refine ⟨hbound.trans, fun hreturned => ⟨fun hnext => ?_, fun hroom call t hs => ?_⟩⟩
  · rw [← hwithin hreturned]
    -- The next call may block for all of its timeout.
    have hblocks : Blocks (d.asMillis : ℤ) (timeoutNanos d : K) :=
      blocks_asMillis_iff.mpr ⟨Nat.cast_nonneg _, le_rfl⟩
    refine hnext ⟨timeoutNanos d, .events 0⟩ ⟨s.elapsed + timeoutNanos d, some (.ok 0)⟩ ?_
    simp only [machine, step, hreturned, timeoutMs_of_lt hd, if_pos hblocks, afterWait]
  · obtain ⟨-, ⟨-, hblocked⟩, rfl⟩ := step_cases hd hs
    calc
      s.elapsed + call.blocked ≤ s.elapsed + timeoutNanos d := by gcongr
      _ = interruptedTime calls + timeoutNanos d := by rw [hwithin hreturned]
      _ ≤ d.asNanos := hroom

/-- Half a millisecond is left of the duration when it is rounded, and two signals take less. -/
def interruptedTwice : List (Call ℕ) :=
  [⟨400000, .interrupted⟩, ⟨100000, .interrupted⟩, ⟨1000000000, .events 0⟩]

theorem interruptedTwice_elapsed_le : ∃ s : State ℕ,
    (machine (some ⟨1, 500000, by decide, by decide⟩)).exec initial interruptedTwice = some s ∧
      s.returned = some (.ok 0) ∧
      s.elapsed ≤ (⟨1, 500000, by decide, by decide⟩ : Duration).asNanos := by
  have hrun : (machine (some ⟨1, 500000, by decide, by decide⟩)).exec (initial : State ℕ)
      interruptedTwice = some ⟨1000500000, some (.ok 0)⟩ := rfl
  refine ⟨_, hrun, rfl, (elapsed_le_of_interruptedTime _ (by decide) _ _ hrun).1 ?_⟩
  simp [interruptedTwice, interruptedTime, Call.interruptedTime, timeoutNanos, Duration.asMillis,
    Duration.asNanos]

/-- A signal just before the second is over starts it again. -/
theorem interrupted_turn_overruns :
    (machine (some ⟨1, 0, by decide, by decide⟩)).exec (initial : State ℕ)
      [⟨999999999, .interrupted⟩, ⟨1000000000, .events 0⟩] =
      some ⟨1999999999, some (.ok 0)⟩ ∧
    ¬ ∀ (d : Duration) (s : State ℕ), d.secs < 2147483 → (machine (some d)).Reachable s →
      s.elapsed ≤ d.asNanos := by
  have hrun : (machine (some ⟨1, 0, by decide, by decide⟩)).exec (initial : State ℕ)
      [⟨999999999, .interrupted⟩, ⟨1000000000, .events 0⟩] =
      some ⟨1999999999, some (.ok 0)⟩ := rfl
  refine ⟨hrun, fun h => ?_⟩
  have := h _ _ (by decide) (Machine.reachable_of_exec rfl hrun)
  exact absurd this (by decide)

end CompleteIo.TurnTimeout
