import CompleteIo.Epoll.InterestsCovered

namespace CompleteIo.FailedInterest

open FuturesRegistration (AddSucceeds addEnd_interests)

inductive Return
  | ok (events : EventMask)
  | err
  deriving DecidableEq

/-- A registration, with the list as it was before the latest call of `add_interest`. -/
structure State (ι T : Type*) where
  reg : FuturesRegistration.State ι T
  before : Interests ι
  returned : Option Return

variable {ι T : Type*}

def initial : State ι T := ⟨FuturesRegistration.initial, [], none⟩

def noteBefore (s : State ι T) : FuturesRegistration.Act ι T → Interests ι
  | .addBegin .. => s.reg.interests
  | _ => s.before

def noteReturn (s : State ι T) : FuturesRegistration.Act ι T → Option Return
  | .addEnd ok =>
    match s.reg.lock with
    | .adding _ events old =>
      if old.contains events then some (.ok events)
      else if ok then some (.ok events) else some .err
    | _ => none
  | _ => none

/-- A failed call left the list as it was, and after a successful one its events are armed for or
an event is still to be handled. -/
structure Correct (s : State ι T) : Prop where
  unchanged : s.returned = some .err → s.reg.interests = s.before
  covered : ∀ events, s.returned = some (.ok events) → s.reg.Covers events

/-- The call that holds the lock has pushed one entry. -/
def Pushed (s : State ι T) : Prop :=
  ∀ x events old, s.reg.lock = .adding x events old → s.reg.interests = s.before ++ [(events, x)]

theorem test_lock_ne {s : FuturesRegistration.State ι T} {events mask old : EventMask} {i : ℕ}
    {remaining : Option EventMask} {x : ι} :
    (FuturesRegistration.test s events i remaining).lock ≠ .adding x mask old := by
  unfold FuturesRegistration.test
  repeat' split
  all_goals simp

theorem correct_of_none {s : State ι T} (h : s.returned = none) : Correct s where
  unchanged hr := by simp [h] at hr
  covered _ hr := by simp [h] at hr

section Step

variable [DecidableEq ι]

def step (s : State ι T) (a : FuturesRegistration.Act ι T) : Option (State ι T) :=
  (FuturesRegistration.step s.reg a).map fun reg => ⟨reg, noteBefore s a, noteReturn s a⟩

def machine (ι T : Type*) [DecidableEq ι] : Machine (State ι T) (FuturesRegistration.Act ι T) where
  init s := s = initial
  step := step

variable {s t : State ι T} {a : FuturesRegistration.Act ι T}

theorem step_pushed (h : Pushed s) (hs : step s a = some t) : Pushed t := by
  obtain ⟨reg, hreg, rfl⟩ := Option.map_eq_some_iff.mp hs
  intro x events old hlock
  cases FuturesRegistration.step_cases hreg with
  | deliver | register => exact h x events old hlock
  | addBegin =>
    simp only [FuturesRegistration.addBegin, FuturesRegistration.Lock.adding.injEq] at hlock ⊢
    obtain ⟨rfl, rfl, -⟩ := hlock
    rfl
  | addEnd =>
    have hfree := FuturesRegistration.addEnd_lock.symm.trans hlock
    cases hfree
  | test hheld => exact absurd hlock test_lock_ne
  | handleBegin | storeFired | notify | remove => cases hlock
  | @rearm _ _ remaining ok =>
    rcases FuturesRegistration.rearm_not_held s.reg remaining ok with hl | hl <;>
      simp [hl] at hlock

theorem reachable_pushed (h : (machine ι T).Reachable s) : Pushed s :=
  h.invariant (fun _ hs _ _ _ hlock => by
    obtain rfl := hs
    cases hlock) fun _ _ _ _ hp _ hs => step_pushed hp hs

/-- The registration runs as it does without the notes. -/
theorem reg_reachesUnder (h : (machine ι T).ReachesUnder (fun s a => AddSucceeds s.reg a) s) :
    (FuturesRegistration.machine ι T).ReachesUnder AddSucceeds s.reg := by
  induction h with
  | init h => exact .init (h ▸ rfl)
  | step _ hok hs ih =>
    obtain ⟨reg, hreg, rfl⟩ := Option.map_eq_some_iff.mp hs
    exact .step ih hok hreg

/-- A call that fails keeps the entry it pushed. -/
theorem addEnd_correct_iff {x : ι} {events old : EventMask} {ok : Bool}
    (hr : (machine ι T).ReachesUnder (fun s a => AddSucceeds s.reg a) s)
    (hlock : s.reg.lock = .adding x events old) :
    Correct ⟨FuturesRegistration.addEnd s.reg events old ok, s.before,
      noteReturn s (.addEnd ok)⟩ ↔ (old.contains events = false → ok = true) := by
  have hpushed := reachable_pushed hr.reachable x events old hlock
  have hreg := reg_reachesUnder hr
  constructor
  · intro hcorrect hskip
    by_contra hok
    rw [Bool.not_eq_true] at hok
    have hunchanged := hcorrect.unchanged (by simp [noteReturn, hlock, hskip, hok])
    simp [FuturesRegistration.addEnd, hskip, hok, hpushed] at hunchanged
  · intro hok
    have hcovers := FuturesRegistration.covers_addEnd
      (FuturesRegistration.reachable_inv hreg.reachable)
      (FuturesRegistration.reachable_armedInv hreg) hlock hok
    -- What covers the whole list covers the entry that was pushed last.
    refine ⟨fun herr => ?_, fun events' hreturned => ?_⟩
    · cases hskip : old.contains events <;> simp_all [noteReturn]
    · obtain rfl : events = events' := by
        cases hskip : old.contains events <;> simp_all [noteReturn]
      have hmem : (events, x) ∈ s.reg.interests := by simp [hpushed]
      exact hcovers.imp_right fun harmed => Flags.contains_trans harmed <|
        Flags.contains_iff.mpr fun b hb =>
          Flags.has_unionOver.mpr ⟨_, addEnd_interests ▸ hmem, hb⟩

theorem step_correct_iff (hr : (machine ι T).ReachesUnder (fun s a => AddSucceeds s.reg a) s)
    (hs : step s a = some t) : Correct t ↔ AddSucceeds s.reg a := by
  obtain ⟨reg, hreg, rfl⟩ := Option.map_eq_some_iff.mp hs
  cases FuturesRegistration.step_cases hreg with
  | @addEnd x events old ok hlock =>
    refine (addEnd_correct_iff hr hlock).trans ⟨fun hok y events' old' hlock' => ?_, fun hok => ?_⟩
    · obtain ⟨-, rfl, rfl⟩ := FuturesRegistration.Lock.adding.inj (hlock.symm.trans hlock')
      exact hok
    · exact hok x events old hlock
  | _ => exact iff_of_true (correct_of_none rfl) trivial

/-- The calls of a run keep what they are to keep exactly when no `modify` that one of them calls
fails; a re-arm may. -/
theorem add_interest_correct_iff {as : List (FuturesRegistration.Act ι T)}
    (hrun : (machine ι T).exec initial as = some s) :
    (machine ι T).Throughout Correct initial as ↔
      (machine ι T).Every (fun s a => AddSucceeds s.reg a) initial as :=
  Machine.throughout_iff_every (fun _ _ _ hr _ hs => step_correct_iff hr hs) (.init rfl)
    (correct_of_none rfl) hrun

end Step

/-- A reader, whose event is delivered and whose re-arming would fail if there were any. -/
def readerServed : List (FuturesRegistration.Act ℕ Unit) :=
  [.addBegin 0 EventMask.READ (), .addEnd true, .deliver 1#32, .handleBegin 1#32, .test,
    .storeFired, .notify, .remove, .test, .rearm false]

theorem readerServed_correct : ∃ s, (machine ℕ Unit).exec initial readerServed = some s ∧
    (machine ℕ Unit).Throughout Correct initial readerServed := by
  refine ⟨_, rfl, (add_interest_correct_iff rfl).mpr ?_⟩
  exact .cons trivial rfl <| .cons (fun _ _ _ _ _ => rfl) rfl <|
    Machine.every_of_forall fun s a ha => by
      simp only [List.mem_cons, List.not_mem_nil, or_false] at ha
      rcases ha with rfl | rfl | rfl | rfl | rfl | rfl | rfl | rfl <;> trivial

/-- A call whose `modify` fails and one for the same events, which does not call it. -/
def failedThenSkipped : List (FuturesRegistration.Act ℕ Unit) :=
  [.addBegin 0 EventMask.READ (), .addEnd false, .addBegin 1 EventMask.READ (), .addEnd true]

/-- The failed call leaves its entry, and the later one returns `Ok` although nothing is armed. -/
theorem failedThenSkipped_unarmed :
    (∃ s, (machine ℕ Unit).exec initial (failedThenSkipped.take 2) = some s ∧
      s.returned = some .err ∧ s.before = [] ∧ s.reg.interests = [(EventMask.READ, 0)]) ∧
    (∃ s, (machine ℕ Unit).exec initial failedThenSkipped = some s ∧
      s.returned = some (.ok EventMask.READ) ∧ s.reg.armed = some ∅ ∧ s.reg.delivered = []) ∧
    ¬ ∀ s, (machine ℕ Unit).Reachable s → Correct s := by
  have hfailed : ∃ s, (machine ℕ Unit).exec initial (failedThenSkipped.take 2) = some s ∧
      s.returned = some .err ∧ s.before = [] ∧ s.reg.interests = [(EventMask.READ, 0)] :=
    ⟨_, rfl, rfl, rfl, rfl⟩
  refine ⟨hfailed, ⟨_, rfl, rfl, rfl, rfl⟩, fun h => ?_⟩
  obtain ⟨s, hrun, herr, hbefore, hinterests⟩ := hfailed
  have hunchanged := (h s (Machine.reachable_of_exec rfl hrun)).unchanged herr
  rw [hinterests, hbefore] at hunchanged
  cases hunchanged

end CompleteIo.FailedInterest
