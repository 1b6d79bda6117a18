import CompleteIo.Epoll.EventMask
import CompleteIo.Lib.SwapRemove

namespace CompleteIo

variable {ι : Type*}

/-- A `FuturesRegistrationHandler` holds these under its lock. -/
abbrev Interests (ι : Type*) := List (EventMask × ι)

def unionMasks (interests : Interests ι) : EventMask := Flags.unionOver Prod.fst interests

def wakes (mask events : EventMask) : Bool :=
  mask.contains events || events.intersects (EventMask.HUP ∪ EventMask.ERROR)

inductive Effect (ι : Type*)
  | storeFired (x : ι)
  | notify (x : ι)
  deriving DecidableEq

/-- A run of `handle_event`: what it did, what it left in the list and the mask, if any, that it
re-armed with. -/
structure Dispatch (ι : Type*) where
  effects : List (Effect ι)
  interests : Interests ι
  rearm : Option EventMask
  deriving DecidableEq

/-- The loop of `handle_event`, from index `i` on; `n` bounds the number of rounds. -/
def handleEventLoop (events : EventMask) : ℕ → Interests ι → ℕ → Option EventMask → Dispatch ι
  | 0, interests, _, remaining => ⟨[], interests, remaining⟩
  | n + 1, interests, i, remaining =>
    match interests[i]? with
    | none => ⟨[], interests, remaining⟩
    | some (mask, x) =>
      if wakes mask events then
        let rest := handleEventLoop events n (swapRemove interests i) i remaining
        { rest with effects := .storeFired x :: .notify x :: rest.effects }
      else handleEventLoop events n interests (i + 1) (some (remaining.getD ∅ ∪ mask))

/-- Every round takes an entry out or passes one, so that one more than there are is enough. -/
def handleEvent (interests : Interests ι) (events : EventMask) : Dispatch ι :=
  handleEventLoop events (interests.length + 1) interests 0 none

def concerns (mask events : EventMask) : Bool :=
  mask.intersects events || events.intersects (EventMask.HUP ∪ EventMask.ERROR)

/-- An event wakes exactly the interested parties. -/
structure WakesInterested (interests : Interests ι) (events : EventMask) (d : Dispatch ι) :
    Prop where
  fired : d.effects.Perm <| (interests.filter fun e => concerns e.1 events).flatMap fun e =>
    [.storeFired e.2, .notify e.2]
  kept : d.interests.Perm (interests.filter fun e => !concerns e.1 events)
  rearmed : d.rearm = if d.interests = [] then none else some (unionMasks d.interests)
  -- An event that the union of the masks armed for fires something.
  progress : interests ≠ [] → (unionMasks interests ∪ EventMask.always).contains events = true →
    d.effects ≠ []

variable {interests : Interests ι} {events : EventMask} {n i : ℕ} {remaining : Option EventMask}

/-- The loop is a sweep that swap-removes what it wakes. -/
theorem handleEventLoop_eq_sweep :
    handleEventLoop events n interests i remaining =
      let swept := sweep (fun e => wakes e.1 events) (fun r e => some (r.getD ∅ ∪ e.1)) n interests
        i remaining
      ⟨swept.1.flatMap fun e => [.storeFired e.2, .notify e.2], swept.2.1, swept.2.2⟩ := by
  induction n generalizing interests i remaining with
  | zero => rfl
  | succ n ih =>
    unfold handleEventLoop sweep
    cases interests[i]? with
    | none => rfl
    | some e =>
      by_cases he : wakes e.1 events = true
      · simp only [he, if_true, ih, List.flatMap_cons, List.cons_append, List.nil_append]
      · simp only [he, if_false, ih, Bool.false_eq_true]

theorem foldl_remaining : (interests.foldl (fun r e => some (r.getD ∅ ∪ e.1)) none) =
    if interests = [] then none else some (unionMasks interests) := by
  induction interests using List.reverseRecOn with
  | nil => rfl
  | append_singleton xs e ih =>
    rw [List.foldl_append, ih]
    by_cases hxs : xs = []
    · simp [hxs, unionMasks, Flags.unionOver]
    · simp [hxs, unionMasks]

theorem handleEvent_fired : (handleEvent interests events).effects.Perm <|
    (interests.filter fun e => wakes e.1 events).flatMap fun e =>
      [.storeFired e.2, .notify e.2] := by
  simp only [handleEvent, handleEventLoop_eq_sweep]
  exact List.Perm.flatMap_right _ (sweep_taken (by omega))

theorem handleEvent_kept :
    (handleEvent interests events).interests.Perm
      (interests.filter fun e => !wakes e.1 events) := by
  simp only [handleEvent, handleEventLoop_eq_sweep]
  exact sweep_kept (by omega)

theorem handleEvent_rearm : (handleEvent interests events).rearm =
    if (handleEvent interests events).interests = [] then none
    else some (unionMasks (handleEvent interests events).interests) := by
  simp only [handleEvent, handleEventLoop_eq_sweep]
  rw [sweep_folded (by omega), List.drop_zero, foldl_remaining]

/-- Whoever was armed for a part of the event is concerned by it. -/
theorem exists_concerns (hevents : events ≠ ∅) (hne : interests ≠ [])
    (harmed : (unionMasks interests ∪ EventMask.always).contains events = true) :
    ∃ e ∈ interests, concerns e.1 events = true := by
  obtain ⟨b, hb⟩ := Flags.ne_empty_iff.mp hevents
  rcases Flags.has_union.mp (Flags.contains_iff.mp harmed b hb) with hu | ha
  · obtain ⟨e, he, hbit⟩ := Flags.has_unionOver.mp hu
    have := Flags.intersects_iff.mpr ⟨b, hbit, hb⟩
    exact ⟨e, he, by simp [concerns, this]⟩
  · obtain ⟨e, he⟩ := List.exists_mem_of_ne_nil _ hne
    have : events.intersects (EventMask.HUP ∪ EventMask.ERROR) = true :=
      Flags.intersects_iff.mpr ⟨b, hb, ha⟩
    exact ⟨e, he, by simp [concerns, this]⟩

theorem wakes_eq_concerns (hevents : events ≠ ∅) {mask : EventMask}
    (h : events.intersects (EventMask.HUP ∪ EventMask.ERROR) = true ∨
      (mask.intersects events = true → mask.contains events = true)) :
    wakes mask events = concerns mask events := by
  have himp : mask.contains events = true → mask.intersects events = true :=
    Flags.intersects_of_contains hevents
  unfold wakes concerns
  rcases h with h | h
  · simp [h]
  · rw [Bool.eq_iff_iff.mpr ⟨himp, h⟩]

/-- A kept interest is one that the event does not concern, which fails exactly for a mask with
a part of the event. -/
theorem wakesInterested_iff (interests : Interests ι) (events : EventMask) (hevents : events ≠ ∅) :
    WakesInterested interests events (handleEvent interests events) ↔
      (events.intersects (EventMask.HUP ∪ EventMask.ERROR) = true ∨
        ∀ e ∈ interests, e.1.intersects events = true → e.1.contains events = true) := by
  constructor
  · intro h
    by_cases halways : events.intersects (EventMask.HUP ∪ EventMask.ERROR) = true
    · exact .inl halways
    refine .inr fun e he hinter => ?_
    by_contra hcontains
    rw [Bool.not_eq_true] at halways hcontains
    -- The loop keeps such an interest, although the event concerns it.
    have hkept : e ∈ interests.filter fun e => !wakes e.1 events := by
      simp [he, wakes, halways, hcontains]
    have hconcerns := h.kept.subset (handleEvent_kept.symm.subset hkept)
    simp [concerns, hinter] at hconcerns
  · intro h
    have heq : ∀ e ∈ interests, wakes e.1 events = concerns e.1 events := fun e he =>
      wakes_eq_concerns hevents (h.imp_right fun h => h e he)
    have hfired : (handleEvent interests events).effects.Perm <|
        (interests.filter fun e => concerns e.1 events).flatMap fun e =>
          [.storeFired e.2, .notify e.2] := by
      rw [← List.filter_congr heq]
      exact handleEvent_fired
    refine ⟨hfired, ?_, handleEvent_rearm, fun hne harmed hnil => ?_⟩
    · rw [← List.filter_congr fun e he => congrArg (!·) (heq e he)]
      exact handleEvent_kept
    · obtain ⟨e, he, hc⟩ := exists_concerns hevents hne harmed
      have hmem : Effect.storeFired e.2 ∈ (handleEvent interests events).effects :=
        hfired.symm.subset (List.mem_flatMap.mpr ⟨e, List.mem_filter.mpr ⟨he, hc⟩, by simp⟩)
      simp [hnil] at hmem

theorem wakesInterested_single : WakesInterested [(EventMask.READ, 0), (EventMask.WRITE, 1)]
    EventMask.WRITE (handleEvent [(EventMask.READ, 0), (EventMask.WRITE, 1)] EventMask.WRITE) :=
  (wakesInterested_iff _ _ (by decide)).mpr (.inr (by decide))

/-- A reader and a writer, both ready in one event: nobody is woken, and both are re-armed. -/
theorem mixedReadiness_wakes_nobody :
    handleEvent [(EventMask.READ, 0), (EventMask.WRITE, 1)] (EventMask.READ ∪ EventMask.WRITE) =
      ⟨[], [(EventMask.READ, 0), (EventMask.WRITE, 1)], some (EventMask.READ ∪ EventMask.WRITE)⟩ ∧
    ¬ WakesInterested [(EventMask.READ, 0), (EventMask.WRITE, 1)]
      (EventMask.READ ∪ EventMask.WRITE)
      (handleEvent [(EventMask.READ, 0), (EventMask.WRITE, 1)]
        (EventMask.READ ∪ EventMask.WRITE)) := by
  have heval : handleEvent [(EventMask.READ, 0), (EventMask.WRITE, 1)]
      (EventMask.READ ∪ EventMask.WRITE) =
      ⟨[], [(EventMask.READ, 0), (EventMask.WRITE, 1)],
        some (EventMask.READ ∪ EventMask.WRITE)⟩ := by decide
  refine ⟨heval, fun h => ?_⟩
  rw [heval] at h
  exact h.progress (by simp) (by decide) rfl

end CompleteIo
