import CompleteIo.Epoll.HandleEvent

namespace CompleteIo

variable {ι : Type*}

/-- The loop of `handle_event` as it runs, with no bound on its rounds: the entries it tests, in
their order, and its outcome. It ends where there is no entry at the index. -/
inductive LoopRuns (events : EventMask) : Interests ι → ℕ → Option EventMask →
    Interests ι → Dispatch ι → Prop
  | ends {interests : Interests ι} {i : ℕ} {remaining : Option EventMask}
      (hi : interests[i]? = none) :
      LoopRuns events interests i remaining [] ⟨[], interests, remaining⟩
  | fires {interests tested : Interests ι} {i : ℕ} {remaining : Option EventMask}
      {mask : EventMask} {x : ι} {d : Dispatch ι} (hi : interests[i]? = some (mask, x))
      (hwakes : wakes mask events = true)
      (rest : LoopRuns events (swapRemove interests i) i remaining tested d) :
      LoopRuns events interests i remaining ((mask, x) :: tested)
        { d with effects := .storeFired x :: .notify x :: d.effects }
  | keeps {interests tested : Interests ι} {i : ℕ} {remaining : Option EventMask}
      {mask : EventMask} {x : ι} {d : Dispatch ι} (hi : interests[i]? = some (mask, x))
      (hkeeps : wakes mask events = false)
      (rest : LoopRuns events interests (i + 1) (some (remaining.getD ∅ ∪ mask)) tested d) :
      LoopRuns events interests i remaining ((mask, x) :: tested) d

/-- The outcome of the loop is a partition of the list by its own match condition. -/
structure Partitions (interests : Interests ι) (events : EventMask) (tested : Interests ι)
    (d : Dispatch ι) : Prop where
  tested : tested.Perm interests
  fired : d.effects.Perm <| (interests.filter fun e => wakes e.1 events).flatMap fun e =>
    [.storeFired e.2, .notify e.2]
  kept : d.interests.Perm (interests.filter fun e => !wakes e.1 events)
  rearm : d.rearm = if d.interests = [] then none else some (unionMasks d.interests)

variable {interests tested : Interests ι} {events : EventMask} {n i : ℕ}
  {remaining : Option EventMask} {d : Dispatch ι}

/-- The entry that takes the place of a fired one is tested next, so none is passed over. -/
theorem LoopRuns.tested_perm (h : LoopRuns events interests i remaining tested d) :
    tested.Perm (interests.drop i) := by
  induction h with
  | ends hi => rw [List.drop_eq_nil_of_le (List.getElem?_eq_none_iff.mp hi)]
  | fires hi _ _ ih =>
    rw [drop_eq_cons hi]
    exact (ih.trans (drop_swapRemove_perm hi)).cons _
  | keeps hi _ _ ih =>
    rw [drop_eq_cons hi]
    exact ih.cons _

/-- A bound that suffices for the rounds that are left does not show in the outcome. -/
theorem LoopRuns.eq_loop (h : LoopRuns events interests i remaining tested d)
    (hn : interests.length ≤ n + i) : handleEventLoop events n interests i remaining = d := by
  induction h generalizing n with
  | ends hi => cases n <;> simp [handleEventLoop, hi]
  | @fires interests _ i _ _ _ _ hi hwakes _ ih =>
    have hlt := (List.getElem?_eq_some_iff.mp hi).1
    obtain ⟨n, rfl⟩ : ∃ m, n = m + 1 := ⟨n - 1, by omega⟩
    have hlen : (swapRemove interests i).length ≤ n + i := by
      rw [length_swapRemove]
      omega
    simp only [handleEventLoop, hi, hwakes, if_true, ih hlen]
  | @keeps interests _ i _ _ _ _ hi hkeeps _ ih =>
    have hlt := (List.getElem?_eq_some_iff.mp hi).1
    obtain ⟨n, rfl⟩ : ∃ m, n = m + 1 := ⟨n - 1, by omega⟩
    simp only [handleEventLoop, hi, hkeeps, Bool.false_eq_true, if_false]
    exact ih (by omega)

/-- Each round takes an entry out or passes one, so that the loop ends. -/
theorem exists_loopRuns (hn : interests.length ≤ n + i) :
    ∃ tested, LoopRuns events interests i remaining tested
      (handleEventLoop events n interests i remaining) := by
  induction n generalizing interests i remaining with
  | zero => exact ⟨[], .ends (List.getElem?_eq_none_iff.mpr (by omega))⟩
  | succ n ih =>
    unfold handleEventLoop
    cases hi : interests[i]? with
    | none => exact ⟨[], .ends hi⟩
    | some e =>
      obtain ⟨mask, x⟩ := e
      by_cases hwakes : wakes mask events = true
      · have hlen : (swapRemove interests i).length ≤ n + i := by
          rw [length_swapRemove]
          omega
        obtain ⟨tested, hrun⟩ := @ih (swapRemove interests i) i remaining hlen
        simp only [hwakes, if_true]
        exact ⟨_, .fires hi hwakes hrun⟩
      · rw [Bool.not_eq_true] at hwakes
        obtain ⟨tested, hrun⟩ := @ih interests (i + 1) (some (remaining.getD ∅ ∪ mask)) (by omega)
        simp only [hwakes, Bool.false_eq_true, if_false]
        exact ⟨_, .keeps hi hwakes hrun⟩

/-- The loop ends, with the outcome that `handleEvent` computes, and its run is an exact
partition of the list. -/
theorem handleEvent_partitions (interests : Interests ι) (events : EventMask) :
    (∃ tested, LoopRuns events interests 0 none tested (handleEvent interests events)) ∧
    ∀ tested d, LoopRuns events interests 0 none tested d →
      Partitions interests events tested d := by
  refine ⟨exists_loopRuns (by omega), fun tested d hrun => ?_⟩
  obtain rfl : handleEvent interests events = d := hrun.eq_loop (by omega)
  exact ⟨by simpa using hrun.tested_perm, handleEvent_fired, handleEvent_kept, handleEvent_rearm⟩

example : handleEvent [(EventMask.READ, 0), (EventMask.WRITE, 1), (EventMask.READ, 2)]
    EventMask.READ =
    ⟨[.storeFired 0, .notify 0, .storeFired 2, .notify 2], [(EventMask.WRITE, 1)],
      some EventMask.WRITE⟩ := by decide

end CompleteIo
