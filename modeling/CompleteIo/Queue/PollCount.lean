import CompleteIo.Lib.Compose
import CompleteIo.Queue.InterruptNotify

namespace CompleteIo.PollCount

open InterruptNotify (machine)

variable {ι : Type*}

/-- How often the loop has begun a poll, and how often a call of `notify` has set the flag. -/
structure Counts where
  polls : ℕ
  raises : ℕ

inductive Count
  | poll
  | raise

def counter : Machine Counts Count where
  init c := c = ⟨0, 0⟩
  step c
    | .poll => some { c with polls := c.polls + 1 }
    | .raise => some { c with raises := c.raises + 1 }

abbrev State (ι : Type*) := InterruptNotify.State ι × Counts

abbrev State.loop (s : State ι) : InterruptNotify.State ι := s.1
abbrev State.counts (s : State ι) : Counts := s.2

/-- A `reset` that finds the flag set leads to a poll, and a swap that does not sets it. -/
def link : Link (InterruptNotify.State ι) Counts (InterruptNotify.Act ι) Count
    (InterruptNotify.Act ι) where
  left a := some a
  right s
    | .reset => if s.notified then some .poll else none
    | .swap _ => if s.notified then none else some .raise
    | _ => none
  permits _ _ _ := true

/-- `EventQueue::run` with a count of its polls. -/
def counted (tid : ℕ+) (ι : Type*) [DecidableEq ι] : Machine (State ι) (InterruptNotify.Act ι) :=
  (machine tid ι).beside counter link

variable [DecidableEq ι] {tid : ℕ+} {s t : State ι} {a : InterruptNotify.Act ι} {i : ι}

/-- Every poll has used up one set flag, of which the first was there from the start. -/
def Balanced (s : State ι) : Prop := s.counts.polls + s.loop.notified.toNat = 1 + s.counts.raises

theorem loop_step (hs : (counted tid ι).step s a = some t) :
    InterruptNotify.step tid s.loop a = some t.loop := Machine.step_left hs rfl

/-- Only a `reset` and a swap touch the flag. -/
theorem notified_step {x y : InterruptNotify.State ι} (hs : InterruptNotify.step tid x a = some y)
    (hreset : a ≠ .reset) (hswap : ∀ i, a ≠ .swap i) : y.notified = x.notified := by
  cases a <;> simp only [InterruptNotify.step] at hs
  case reset => exact absurd rfl hreset
  case swap i => exact absurd rfl (hswap i)
  all_goals
    repeat' split at hs
    all_goals cases hs
    all_goals rfl

theorem notified_reset {x y : InterruptNotify.State ι}
    (hs : InterruptNotify.step tid x .reset = some y) : y.notified = false := by
  obtain ⟨-, hs⟩ := Option.ite_none_right_eq_some.mp hs
  exact Option.some.inj hs ▸ rfl

theorem notified_swap {x y : InterruptNotify.State ι}
    (hs : InterruptNotify.step tid x (.swap i) = some y) : y.notified = true := by
  obtain ⟨-, hs⟩ := Option.ite_none_right_eq_some.mp hs
  by_cases hnotified : x.notified = true
  · rw [if_pos hnotified] at hs
    exact Option.some.inj hs ▸ hnotified
  · rw [if_neg hnotified] at hs
    exact Option.some.inj hs ▸ rfl

inductive Moves (s t : State ι) : Prop
  | keeps (hflag : t.loop.notified = s.loop.notified) (hcounts : t.counts = s.counts)
  | polls (hset : s.loop.notified = true) (hreset : t.loop.notified = false)
      (hcounts : t.counts = { s.counts with polls := s.counts.polls + 1 })
  | raises (hreset : s.loop.notified = false) (hset : t.loop.notified = true)
      (hcounts : t.counts = { s.counts with raises := s.counts.raises + 1 })

theorem step_moves (hs : (counted tid ι).step s a = some t) : Moves s t := by
  have hloop := loop_step hs
  cases a
  case reset =>
    have hreset := notified_reset hloop
    cases hset : s.1.notified with
    | true =>
      have hcount : counter.step s.2 .poll = some t.2 :=
        Machine.step_right hs (by simp [link, hset])
      exact .polls hset hreset (Option.some.inj hcount).symm
    | false =>
      exact .keeps (hreset.trans hset.symm) (Machine.idle_right hs (by simp [link, hset]))
  case swap i =>
    have hset := notified_swap hloop
    cases hflag : s.1.notified with
    | true => exact .keeps (hset.trans hflag.symm) (Machine.idle_right hs (by simp [link, hflag]))
    | false =>
      have hcount : counter.step s.2 .raise = some t.2 :=
        Machine.step_right hs (by simp [link, hflag])
      exact .raises hflag hset (Option.some.inj hcount).symm
  all_goals exact .keeps (notified_step hloop (by simp) (by simp)) (Machine.idle_right hs rfl)

theorem step_balanced (h : Balanced s) (hs : (counted tid ι).step s a = some t) : Balanced t := by
  unfold Balanced at h ⊢
  cases step_moves hs with
  | keeps hflag hcounts => rw [hflag, hcounts, h]
  | polls hset hreset hcounts =>
    rw [hset, Bool.toNat_true] at h
    rw [hreset, hcounts, Bool.toNat_false]
    exact h
  | raises hreset hset hcounts =>
    rw [hreset, Bool.toNat_false] at h
    rw [hset, hcounts, Bool.toNat_true]
    change s.counts.polls + 1 = 1 + (s.counts.raises + 1)
    omega

theorem reachable_balancedCounts (hr : (counted tid ι).Reachable s) : Balanced s := by
  refine hr.invariant (fun s hs => ?_) fun _ _ _ _ h _ hs => step_balanced h hs
  obtain ⟨hloop, hcounts⟩ : s.1 = InterruptNotify.initial ∧ s.2 = ⟨0, 0⟩ := hs
  rw [Balanced, State.counts, State.loop, hloop, hcounts]
  rfl

/-- Once set, the flag is reset by the beginning of a poll only. -/
theorem step_due {n : ℕ} (h : s.loop.notified = true ∧ s.counts.polls = n ∨ n < s.counts.polls)
    (hs : (counted tid ι).step s a = some t) :
    t.loop.notified = true ∧ t.counts.polls = n ∨ n < t.counts.polls := by
  cases step_moves hs with
  | keeps hflag hcounts => rwa [hflag, hcounts]
  | polls _ _ hcounts =>
    right
    have : n ≤ s.counts.polls := h.elim (fun h => h.2.ge) Nat.le_of_lt
    rw [hcounts]
    exact Nat.lt_succ_of_le this
  | raises hreset _ hcounts =>
    rw [hcounts]
    exact .inr (h.resolve_left fun hn => by simp [hreset] at hn)

/-- The loop polls once at first and then once for each notification that was not coalesced with
another one; and a poll begins after any call of `notify`, coalesced or not, or is due. -/
theorem polls_answer_notifications (hr : (counted tid ι).Reachable s) :
    s.counts.polls + s.loop.notified.toNat = 1 + s.counts.raises ∧
      ∀ i as t, (counted tid ι).exec s (.swap i :: as) = some t →
        t.loop.notified = true ∨ s.counts.polls < t.counts.polls := by
  refine ⟨reachable_balancedCounts hr, fun i as t hrun => ?_⟩
  obtain ⟨u, hu, hrun⟩ := Option.bind_eq_some_iff.mp hrun
  have hset := notified_swap (loop_step hu)
  have hpolls : u.counts.polls = s.counts.polls := by
    cases step_moves hu with
    | keeps _ hcounts => rw [hcounts]
    | polls _ hreset => simp [hreset] at hset
    | raises _ _ hcounts => rw [hcounts]
  have hdue := Machine.exec_invariant
    (I := fun u : State ι => u.loop.notified = true ∧ u.counts.polls = s.counts.polls ∨
      s.counts.polls < u.counts.polls) (q := fun _ _ => True) (.inl ⟨hset, hpolls⟩)
    (fun _ _ _ hi _ hs => step_due hi hs) (Machine.every_of_forall fun _ _ _ => trivial) hrun
  exact hdue.imp_left And.left

def initial : State ι := (InterruptNotify.initial, ⟨0, 0⟩)

theorem initial_init : (counted tid ι).init initial := ⟨rfl, rfl⟩

def notifyInPoll : List (InterruptNotify.Act Bool) := [.reset, .swap true, .pollNotReady]

/-- A second call is coalesced with the first, and the poll for both is due. -/
theorem notifyInPoll_answered : ∃ s t : State Bool,
    (counted 1 Bool).exec initial notifyInPoll = some s ∧ s.counts = ⟨1, 1⟩ ∧
      (counted 1 Bool).exec s [.swap false, .publish] = some t ∧
      (t.loop.notified = true ∨ s.counts.polls < t.counts.polls) := by
  have hrun : (counted 1 Bool).exec initial notifyInPoll = some _ := rfl
  have hr := Machine.reachable_of_exec initial_init hrun
  exact ⟨_, _, hrun, rfl, rfl, (polls_answer_notifications hr).2 false [.publish] _ rfl⟩

end CompleteIo.PollCount
