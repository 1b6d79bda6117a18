import CompleteIo.Epoll.FuturesRegistration

namespace CompleteIo.FuturesRegistration

variable {ι T : Type*} {s t : State ι T}

@[simp] def HandlePc.entry : HandlePc ι → Option ι
  | .storeFired x | .notify x | .remove x => some x
  | .test | .rearm => none

/-- The loop of `handle_event` has kept the entries before `i`, and `remaining` is their union. -/
structure LoopInv (interests : Interests ι) (i : ℕ) (remaining : Option EventMask)
    (pc : HandlePc ι) : Prop where
  le : i ≤ interests.length
  remaining : remaining = if i = 0 then none else some (unionMasks (interests.take i))
  entry : ∀ x, pc.entry = some x → ∃ mask, interests[i]? = some (mask, x)
  rearm : pc = .rearm → i = interests.length

structure Inv (s : State ι T) : Prop where
  adding : ∀ x events old, s.lock = .adding x events old →
    ∃ earlier, s.interests = earlier ++ [(events, x)] ∧ old = unionMasks earlier
  handling : ∀ events i remaining pc, s.lock = .handling events i remaining pc →
    LoopInv s.interests i remaining pc

theorem Inv.of_free (h : s.lock = .free) : Inv s where
  adding _ _ _ hl := by simp [h] at hl
  handling _ _ _ _ hl := by simp [h] at hl

theorem Inv.of_same (h : Inv s) (hi : t.interests = s.interests) (hl : t.lock = s.lock) :
    Inv t where
  adding x events old ht := hi ▸ h.adding x events old (hl ▸ ht)
  handling events i remaining pc ht := hi ▸ h.handling events i remaining pc (hl ▸ ht)

theorem Inv.of_handling {events : EventMask} {i : ℕ} {remaining : Option EventMask}
    {pc : HandlePc ι} (hl : s.lock = .handling events i remaining pc)
    (h : LoopInv s.interests i remaining pc) : Inv s where
  adding _ _ _ ht := by simp [hl] at ht
  handling _ _ _ _ ht := by
    rw [hl, Lock.handling.injEq] at ht
    obtain ⟨-, rfl, rfl, rfl⟩ := ht
    exact h

theorem inv_test {events : EventMask} {i : ℕ} {remaining : Option EventMask}
    (hs : s.lock = .handling events i remaining .test) (h : Inv s) :
    Inv (test s events i remaining) := by
  have hloop := h.handling _ _ _ _ hs
  unfold test
  split
  · rename_i hnone
    refine .of_handling rfl ⟨hloop.le, hloop.remaining, by simp, fun _ => ?_⟩
    exact Nat.le_antisymm hloop.le (List.getElem?_eq_none_iff.mp hnone)
  · rename_i mask x hsome
    have hlt := (List.getElem?_eq_some_iff.mp hsome).1
    split
    · refine .of_handling rfl ⟨hloop.le, hloop.remaining, fun y hy => ?_, by simp⟩
      obtain rfl : x = y := by simpa using hy
      exact ⟨mask, hsome⟩
    · refine .of_handling rfl ⟨hlt, ?_, by simp, by simp⟩
      have hprefix : (remaining.getD ∅ : EventMask) = unionMasks (s.interests.take i) := by
        rw [hloop.remaining]
        split <;> simp_all [unionMasks]
      simp [List.take_add_one, State.setPc, hsome, unionMasks, hprefix]

theorem loopInv_remove {i : ℕ} {remaining : Option EventMask} {x : ι} {interests : Interests ι}
    (h : LoopInv interests i remaining (.remove x)) :
    LoopInv (swapRemove interests i) i remaining .test := by
  obtain ⟨mask, hx⟩ := h.entry x rfl
  have hlt := (List.getElem?_eq_some_iff.mp hx).1
  refine ⟨by rw [length_swapRemove]; omega, ?_, by simp, by simp⟩
  rw [take_swapRemove hlt]
  exact h.remaining

@[simp] theorem addEnd_lock {events old : EventMask} {ok : Bool} :
    (addEnd s events old ok).lock = .free := by
  unfold addEnd
  repeat' split
  all_goals rfl

@[simp] theorem addEnd_interests {events old : EventMask} {ok : Bool} :
    (addEnd s events old ok).interests = s.interests := by
  unfold addEnd
  repeat' split
  all_goals rfl

theorem rearm_not_held (s : State ι T) (remaining : Option EventMask) (ok : Bool) :
    (rearm s remaining ok).lock = .free ∨ (rearm s remaining ok).lock = .poisoned := by
  unfold rearm
  repeat' split
  all_goals simp

/-- Some event will still be handled, or the kernel waits for all of the mask. -/
def State.Covers (s : State ι T) (mask : EventMask) : Prop :=
  s.delivered ≠ [] ∨ s.armedMask.contains mask = true

/-- What `add_interest` infers about the entry from the list. -/
structure ArmedInv (s : State ι T) : Prop where
  free : s.lock = .free → s.Covers (unionMasks s.interests)
  adding : ∀ x events old, s.lock = .adding x events old → s.Covers old

def AddSucceeds (s : State ι T) : Act ι T → Prop
  | .addEnd ok => ∀ x events old, s.lock = .adding x events old →
      old.contains events = false → ok = true
  | _ => True

theorem ArmedInv.of_handling {events : EventMask} {i : ℕ} {remaining : Option EventMask}
    {pc : HandlePc ι} (hl : s.lock = .handling events i remaining pc) : ArmedInv s where
  free ht := by simp [hl] at ht
  adding _ _ _ ht := by simp [hl] at ht

theorem ArmedInv.of_free (hl : s.lock = .free) (h : s.Covers (unionMasks s.interests)) :
    ArmedInv s where
  free _ := h
  adding _ _ _ ht := by simp [hl] at ht

theorem initial_armedInv : ArmedInv (initial : State ι T) :=
  .of_free rfl (.inr (by simp [initial, State.armedMask, unionMasks]))

/-- If the old mask has the new events then the entry already waits for them. -/
theorem covers_addEnd {x : ι} {events old : EventMask} {ok : Bool} (h : Inv s) (ha : ArmedInv s)
    (hlock : s.lock = .adding x events old) (hok : old.contains events = false → ok = true) :
    (addEnd s events old ok).Covers (unionMasks (addEnd s events old ok).interests) := by
  obtain ⟨earlier, hinterests, hold⟩ := h.adding _ _ _ hlock
  have hunion : unionMasks s.interests = old ∪ events := by
    rw [hinterests, hold]
    exact Flags.unionOver_concat
  unfold addEnd
  split
  · -- The fast path: what was armed for the older interests will do.
    rename_i hcontains
    rw [hunion, Flags.union_eq_left.mpr hcontains]
    exact ha.adding _ _ _ hlock
  · rename_i hcontains
    obtain rfl := hok (Bool.not_eq_true _ ▸ hcontains)
    right
    simp [State.armedMask, hunion]

/-- The loop has kept the whole list, and its union is the mask it re-arms with, unless that fails
and the lock is poisoned. -/
theorem covers_rearm {i : ℕ} {remaining : Option EventMask} {ok : Bool}
    (h : LoopInv s.interests i remaining .rearm) (hfree : (rearm s remaining ok).lock = .free) :
    (rearm s remaining ok).Covers (unionMasks (rearm s remaining ok).interests) := by
  have hi := h.rearm rfl
  have hrem := h.remaining
  rw [hi, List.take_length] at hrem
  right
  unfold rearm at hfree ⊢
  split
  · -- Nothing was kept, so that a disabled entry is enough.
    have hnil : s.interests = [] := by
      by_contra hne
      simp [List.length_eq_zero_iff, hne] at hrem
    simp [hnil, unionMasks]
  · rename_i mask
    have hmask : mask = unionMasks s.interests := by
      split at hrem
      · cases hrem
      · exact Option.some.inj hrem
    cases ok with
    | true => simp [State.armedMask, hmask]
    | false => simp at hfree

section Step

variable [DecidableEq ι] {a : Act ι T}

theorem step_inv (h : Inv s) (hs : step s a = some t) : Inv t := by
  cases step_cases hs with
  | deliver | register => exact h.of_same rfl rfl
  | @addBegin x events task =>
    refine ⟨fun y ev old hl => ?_, fun _ _ _ _ hl => by simp [addBegin] at hl⟩
    simp only [addBegin, Lock.adding.injEq] at hl
    obtain ⟨rfl, rfl, rfl⟩ := hl
    exact ⟨s.interests, rfl, rfl⟩
  | addEnd => exact .of_free addEnd_lock
  | handleBegin => exact .of_handling rfl ⟨Nat.zero_le _, by simp, by simp, by simp⟩
  | test hlock => exact inv_test hlock h
  | storeFired hlock | notify hlock =>
    have hloop := h.handling _ _ _ _ hlock
    exact .of_handling rfl ⟨hloop.le, hloop.remaining, hloop.entry, by simp⟩
  | remove hlock => exact .of_handling rfl (loopInv_remove (h.handling _ _ _ _ hlock))
  | @rearm _ _ remaining ok =>
    rcases rearm_not_held s remaining ok with hl | hl
    · exact .of_free hl
    · exact ⟨fun _ _ _ ht => by simp [hl] at ht, fun _ _ _ _ ht => by simp [hl] at ht⟩

theorem reachable_inv (h : (machine ι T).Reachable s) : Inv s :=
  h.invariant (fun _ hs => .of_free (hs ▸ rfl)) fun _ _ _ _ hi _ hs => step_inv hi hs

theorem step_armedInv (h : Inv s) (ha : ArmedInv s) (hok : AddSucceeds s a)
    (hs : step s a = some t) : ArmedInv t := by
  cases step_cases hs with
  | deliver => exact ⟨fun _ => .inl (by simp), fun _ _ _ _ => .inl (by simp)⟩
  | register => exact ⟨ha.free, ha.adding⟩
  | addBegin hlock =>
    refine ⟨fun hl => by simp [addBegin] at hl, fun y ev old hl => ?_⟩
    simp only [addBegin, Lock.adding.injEq] at hl
    exact hl.2.2 ▸ ha.free hlock
  | addEnd hlock =>
    exact .of_free addEnd_lock (covers_addEnd h ha hlock (hok _ _ _ hlock))
  | handleBegin | storeFired | notify | remove => exact .of_handling rfl
  | test =>
    unfold FuturesRegistration.test
    repeat' split
    all_goals exact .of_handling rfl
  | @rearm _ _ remaining ok hlock =>
    refine ⟨covers_rearm (h.handling _ _ _ _ hlock), fun _ _ _ hadding => ?_⟩
    rcases rearm_not_held s remaining ok with hl | hl <;> simp [hl] at hadding

omit [DecidableEq ι] in
theorem AddSucceeds.of_ctl (h : CtlSucceeds s a) : AddSucceeds s a := by
  cases a with
  | addEnd ok => exact fun _ _ _ _ _ => h
  | _ => trivial

theorem reachable_armedInv (h : (machine ι T).ReachesUnder AddSucceeds s) : ArmedInv s :=
  h.invariant (fun _ hs => hs ▸ initial_armedInv) fun _ _ _ hr ha hok hs =>
    step_armedInv (reachable_inv hr.reachable) ha hok hs

/-- While the lock is free every pending interest is armed for, or an event is yet to be handled;
and a new one that `add_interest` does not arm for was armed for already. -/
theorem interests_covered (h : (machine ι T).ReachesUnder CtlSucceeds s) :
    (s.lock = .free →
      s.delivered ≠ [] ∨ s.armedMask.contains (unionMasks s.interests) = true) ∧
    ∀ x events old, s.lock = .adding x events old → old.contains events = true →
      s.delivered ≠ [] ∨ s.armedMask.contains events = true := by
  have ha := reachable_armedInv (h.mono fun _ _ => .of_ctl)
  refine ⟨ha.free, fun x events old hlock hskip => ?_⟩
  exact (ha.adding _ _ _ hlock).imp_right fun hold => Flags.contains_trans hold hskip

/-- Two readers, the second of them added without arming. -/
def twoReaders : List (Act ℕ Unit) :=
  [.addBegin 0 EventMask.READ (), .addEnd true, .addBegin 1 EventMask.READ ()]

theorem twoReaders_covered : ∃ s, (machine ℕ Unit).exec initial twoReaders = some s ∧
    s.lock = .adding 1 EventMask.READ EventMask.READ ∧
      (s.delivered ≠ [] ∨ s.armedMask.contains EventMask.READ = true) := by
  refine ⟨_, rfl, ?_, ?_⟩
  · rfl
  · exact (interests_covered (Machine.ReachesUnder.exec (.init rfl)
      (show (machine ℕ Unit).Every CtlSucceeds initial twoReaders from
        .cons trivial rfl <| .cons rfl rfl <| .cons trivial rfl trivial)
      (show (machine ℕ Unit).exec initial twoReaders = some _ from rfl))).2 1 EventMask.READ
        EventMask.READ rfl rfl

end Step

end CompleteIo.FuturesRegistration
