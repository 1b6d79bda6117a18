import CompleteIo.ThreadPool.GlobalTask
import CompleteIo.Lib.Occupancy

namespace CompleteIo.GlobalTask

variable {W T : Type*} [DecidableEq T] {s s' : State W T} {t : T}

def Act.task : Act W T → T
  | .spawnFuture t | .takeDatum _ t | .pushSpawned _ t | .steal _ t | .load _ t
  | .beginPoll _ t _ | .pollNotReady _ t _ | .pollReady _ t _ | .pollErr _ t _
  | .compareExchange _ t _ | .fetchAdd _ t | .push _ t => t

@[simp] def Activity.On (t : T) : Activity T → Prop
  | .doPoll t' _ | .spawning t' => t' = t
  | .idle | .exiting => False

/-- Nothing about the task differs between the two states. -/
structure Same (t : T) (s s' : State W T) : Prop where
  future : s'.future t = s.future t
  signalLevel : s'.signalLevel t = s.signalLevel t
  suspended : s'.suspended t = s.suspended t
  owed : s'.owed t = s.owed t
  calls : s'.calls t = s.calls t
  activity : ∀ w, (s.activity w).On t ∨ (s'.activity w).On t → s'.activity w = s.activity w
  posted : s'.posted.count t = s.posted.count t
  queued : ∀ w, (s'.deque w).count t = (s.deque w).count t
  pushing : ∀ w, (s'.pushing w).count t = (s.pushing w).count t

theorem Same.refl (s : State W T) : Same t s s := by
  constructor <;> simp

theorem Same.activity_iff (h : Same t s s') {w : W} {x : Activity T} (hx : x.On t) :
    s'.activity w = x ↔ s.activity w = x := by
  constructor
  · intro hw
    rw [← hw, h.activity w (.inr (hw ▸ hx))]
  · intro hw
    rw [← hw, h.activity w (.inl (hw ▸ hx))]

theorem Same.polls (h : Same t s s') (w : W) :
    (s'.activity w).polls t = (s.activity w).polls t := by
  by_cases hon : (s.activity w).On t ∨ (s'.activity w).On t
  · rw [h.activity w hon]
  · rw [not_or] at hon
    cases hv : s.activity w <;> cases hv' : s'.activity w <;>
      simp_all [Activity.polls]

theorem Same.occupancy (h : Same t s s') : occupancy s' t = occupancy s t := by
  funext p
  cases p with
  | posted => exact h.posted
  | spawning w => simp only [GlobalTask.occupancy, h.activity_iff (x := .spawning t) rfl]
  | queued w => exact h.queued w
  | doPoll w => simp only [GlobalTask.occupancy, h.polls w]
  | pushing w => exact h.pushing w
  | suspended => simp only [GlobalTask.occupancy, h.suspended]

/-- The level that this `do_poll` compares with, read as a count without wrap-around, is one
the task had while it was not suspended. A notification since the poll has raised it. -/
def PollPc.Covers (count : ℕ) (owed : Bool) : PollPc → Prop
  | .load => True
  | .poll level => ∃ c, 0 < c ∧ c ≤ count ∧ level = c % 2 ^ 64
  | .polling level | .compareExchange level =>
    ∃ c, 0 < c ∧ c ≤ count ∧ level = c % 2 ^ 64 ∧ (owed = true → c < count)

/-- `count` is the signal level of the task without wrap-around. -/
structure Level (s : State W T) (t : T) (count : ℕ) : Prop where
  word : s.signalLevel t = count % 2 ^ 64
  bound : count ≤ s.calls t + 1
  zero : s.suspended t = true ↔ count = 0
  quiet : count = 0 → s.owed t = false
  covers : ∀ w pc, s.activity w = .doPoll t pc → pc.Covers count (s.owed t)

/-- A pending task is at one place, any other at none, and the level tells if it is suspended. -/
structure Inv (s : State W T) (t : T) : Prop where
  pending : s.future t = .pending → ∃ p, AtOnly (occupancy s t) p
  absent : s.future t ≠ .pending → ∀ p, occupancy s t p = 0
  level : s.future t ≠ .unspawned → ∃ count, Level s t count
  few : s.calls t < 2 ^ 64

theorem Level.of_same {count : ℕ} (h : Level s t count) (hsame : Same t s s') :
    Level s' t count where
  word := hsame.signalLevel ▸ h.word
  bound := hsame.calls ▸ h.bound
  zero := hsame.suspended ▸ h.zero
  quiet := hsame.owed ▸ h.quiet
  covers w pc hw := hsame.owed ▸ h.covers w pc ((hsame.activity_iff (x := .doPoll t pc) rfl).mp hw)

theorem Inv.of_same (h : Inv s t) (hsame : Same t s s') : Inv s' t where
  pending hf := hsame.occupancy ▸ h.pending (hsame.future ▸ hf)
  absent hf := hsame.occupancy ▸ h.absent (hsame.future ▸ hf)
  level hf := (h.level (hsame.future ▸ hf)).imp fun _ hl => hl.of_same hsame
  few := hsame.calls ▸ h.few

theorem Inv.at (h : Inv s t) {p : Place W} (hp : occupancy s t p ≠ 0) :
    s.future t = .pending ∧ AtOnly (occupancy s t) p := by
  have hf : s.future t = .pending := by_contra fun hf => hp (h.absent hf p)
  obtain ⟨q, hq⟩ := h.pending hf
  exact ⟨hf, hq.eq_of_ne_zero hp ▸ hq⟩

theorem initial_inv (t : T) : Inv (initial : State W T) t := by
  constructor
  · simp [initial]
  · rintro - (_ | _ | _ | _ | _ | _) <;> simp [initial, occupancy, Activity.polls]
  · simp [initial]
  · simp [initial]

variable [DecidableEq W] {a : Act W T}

theorem Same.setActivity (h : Same t s s') {w : W} {x : Activity T}
    (hw : ¬ (s.activity w).On t) (hx : ¬ x.On t) : Same t s (s'.setActivity w x) := by
  refine ⟨h.future, h.signalLevel, h.suspended, h.owed, h.calls, fun v hv => ?_, h.posted,
    h.queued, h.pushing⟩
  by_cases hvw : v = w
  · subst hvw
    simp only [State.setActivity, Function.update_self] at hv
    exact absurd hv (by simp only [hw, hx, or_self, not_false_eq_true])
  · simp only [State.setActivity, Function.update_of_ne hvw] at hv ⊢
    exact h.activity v hv

theorem Same.pushTo (h : Same t s s') {w : W} {u : T} (hu : t ≠ u) :
    Same t s (s'.pushTo w u) := by
  refine ⟨h.future, h.signalLevel, h.suspended, h.owed, h.calls, h.activity, h.posted,
    fun v => ?_, h.pushing⟩
  by_cases hvw : v = w
  · subst hvw
    simp [State.pushTo, hu.symm, h.queued]
  · simp only [State.pushTo, Function.update_of_ne hvw, h.queued]

/-- A step is about one task only. -/
theorem step_other (hs : step s a = some s') (ht : t ≠ a.task) : Same t s s' := by
  cases a
  all_goals simp only [step, Option.ite_none_right_eq_some, Option.some.injEq] at hs
  all_goals obtain ⟨hg, rfl⟩ := hs
  all_goals simp only [Act.task] at ht
  case spawnFuture u => constructor <;> simp [State.setLevel, ht, ht.symm]
  case takeDatum w u =>
    refine Same.setActivity ?_ (by simp [hg]) (by simp [ht.symm])
    constructor <;> simp [List.count_erase_of_ne ht]
  case pushSpawned w u =>
    exact ((Same.refl s).pushTo ht).setActivity (by simp [hg, ht.symm]) (by simp)
  case steal w u =>
    refine Same.setActivity ?_ (by simp [hg]) (by simp [ht.symm])
    constructor <;> simp only [implies_true]
    intro v
    by_cases hvw : v = w
    · simp [hvw, List.count_erase_of_ne ht]
    · simp [hvw]
  case load | pollNotReady =>
    exact (Same.refl s).setActivity (by simp [hg, ht.symm]) (by simp [ht.symm])
  case beginPoll | pollReady | pollErr =>
    refine Same.setActivity ?_ (by simp [hg, ht.symm]) (by simp [ht.symm])
    constructor <;> simp [State.setOwed, State.resolve, ht]
  case compareExchange w u level =>
    unfold compareExchange
    split
    · refine Same.setActivity ?_ (by simp [hg, ht.symm]) (by simp)
      constructor <;> simp [State.setLevel, State.setSuspended, ht]
    · exact (Same.refl s).setActivity (by simp [hg, ht.symm]) (by simp [ht.symm])
  case fetchAdd w u =>
    unfold fetchAdd
    split
    · constructor <;> try simp [State.setLevel, State.setSuspended, ht]
      intro v
      by_cases hvw : v = w
      · simp [hvw, ht.symm]
      · simp [hvw]
    · constructor <;> simp [State.setLevel, ht]
  case push w u =>
    refine Same.pushTo ?_ ht
    constructor <;> simp only [implies_true]
    intro v
    by_cases hvw : v = w
    · simp [hvw, List.count_erase_of_ne ht]
    · simp [hvw]

end CompleteIo.GlobalTask
