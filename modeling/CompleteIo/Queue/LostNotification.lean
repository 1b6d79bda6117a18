import CompleteIo.Queue.InterruptNotify

namespace CompleteIo.InterruptNotify

attribute [local simp] RunPc.BeforeWait NotifyPc.AboutToSend

variable {ι : Type*} [DecidableEq ι] {tid : ℕ+} {s t : State ι} {a : Act ι}

def RunPc.Published : RunPc → Prop
  | .enter | .blocked | .withdraw _ => True
  | _ => False

/-- A set flag has a wake-up on its way, from the swap of `reset` to the end of the wait. -/
structure Inv (tid : ℕ+) (s : State ι) : Prop where
  published : s.pc.Published → s.threadId = tid
  withdrawn : ¬ s.pc.Published → s.threadId = 0
  target : ∀ i id, s.calls i = .kill id → id = tid
  wakeup : s.pc.BeforeWait ∨ s.pc = .blocked → s.notified = true →
    s.pending = true ∨ ∃ i, (s.calls i).AboutToSend

attribute [local simp] RunPc.Published

omit [DecidableEq ι] in
theorem initial_inv : Inv tid (initial : State ι) := by
  constructor <;> simp [initial]

/-- A call that was not about to send does not matter when it moves on. -/
theorem exists_sender_setCall {i : ι} {pc : NotifyPc} (hi : ¬ (s.calls i).AboutToSend)
    (h : ∃ j, (s.calls j).AboutToSend) : ∃ j, ((s.setCall i pc).calls j).AboutToSend := by
  obtain ⟨j, hj⟩ := h
  have hne : j ≠ i := fun he => hi (he ▸ hj)
  exact ⟨j, by rwa [setCall_other s i pc hne]⟩

theorem target_setCall {i : ι} {pc : NotifyPc} (h : ∀ j id, s.calls j = .kill id → id = tid)
    (hpc : ∀ id, pc = .kill id → id = tid) :
    ∀ j id, (s.setCall i pc).calls j = .kill id → id = tid := by
  intro j id hj
  by_cases hji : j = i
  · subst hji
    exact hpc id (by rwa [setCall_self] at hj)
  · rw [setCall_other s i pc hji] at hj
    exact h j id hj

/-- A call of `notify` moves on; what it did to the flag must leave a wake-up. -/
theorem Inv.setCall (h : Inv tid s) {i : ι} {pc : NotifyPc} {notified : Bool}
    (htarget : ∀ id, pc = .kill id → id = tid)
    (hwakeup : s.pc.BeforeWait ∨ s.pc = .blocked → notified = true →
      s.pending = true ∨ ∃ j, ((s.setCall i pc).calls j).AboutToSend) :
    Inv tid ({ s with notified := notified }.setCall i pc) where
  published := h.published
  withdrawn := h.withdrawn
  target := target_setCall h.target htarget
  wakeup := hwakeup

omit [DecidableEq ι] in
theorem inv_reset (h : Inv tid s) (hpc : s.pc = .reset) :
    Inv tid { s with notified := false, pc := if s.notified then .polling else .publish } := by
  refine ⟨?_, fun _ => h.withdrawn (by simp [hpc]), h.target, by simp⟩
  cases s.notified <;> simp

omit [DecidableEq ι] in
theorem inv_signal (h : Inv tid s) (hok : LeavesWakeup s .signal) :
    Inv tid { s with
      pending := false
      pc := if s.pc = .blocked then .withdraw .interrupted else s.pc } := by
  by_cases hpc : s.pc = .blocked
  · -- The wait ends, and with it all that was claimed for a set flag.
    refine ⟨fun _ => h.published (by simp [hpc]), ?_, h.target, ?_⟩ <;> simp [hpc]
  · refine ⟨?_, ?_, h.target, ?_⟩
    · simpa [hpc] using h.published
    · simpa [hpc] using h.withdrawn
    · intro hw hn
      simp only [hpc, if_false, or_false] at hw
      exact .inr (hok hw hn)

/-- A load that finds no thread id: ahead of the wait the condition leaves another wake-up, and
in the wait the id is not zero. -/
theorem inv_load_zero (h : Inv tid s) {i : ι} (hok : LeavesWakeup s (.load i))
    (hzero : s.threadId = 0) : Inv tid (s.setCall i (.returned (some false))) := by
  refine h.setCall (by simp) fun hw hn => ?_
  rcases hw with hw | hw
  · refine (hok hw hn hzero).imp_right fun ⟨j, hne, hj⟩ => ⟨j, ?_⟩
    rwa [setCall_other s i _ hne]
  · have := h.published (by simpa using congrArg RunPc.Published hw)
    exact absurd (this.symm.trans hzero) tid.ne_zero

theorem inv_load_pos (h : Inv tid s) {i : ι} (hpos : s.threadId ≠ 0) :
    Inv tid (s.setCall i (.kill s.threadId)) := by
  have htid : s.threadId = tid := h.published (by_contra fun hp => hpos (h.withdrawn hp))
  exact h.setCall (by simp [htid]) fun _ _ => .inr ⟨i, by simp⟩

theorem step_inv (h : Inv tid s) (hok : LeavesWakeup s a) (hs : step tid s a = some t) :
    Inv tid t := by
  cases a <;> simp only [step, Option.ite_none_right_eq_some] at hs
  case reset =>
    obtain ⟨hpc, hs⟩ := hs
    exact Option.some.inj hs ▸ inv_reset h hpc
  case pollNotReady | pollResolved | publish | enter | dispatched =>
    obtain ⟨hpc, hs⟩ := hs
    cases hs
    have hpub := h.published
    have hzero := h.withdrawn
    have hwake := h.wakeup
    simp only [hpc] at hpub hzero hwake
    refine ⟨?_, ?_, h.target, ?_⟩ <;> simp_all
  case signal => exact Option.some.inj hs.2 ▸ inv_signal h hok
  case wake r =>
    obtain ⟨⟨hpc, -⟩, hs⟩ := hs
    cases hs
    exact ⟨fun _ => h.published (by simp [hpc]), by simp, h.target, by simp⟩
  case withdraw =>
    split at hs
    all_goals cases hs
    all_goals exact ⟨by simp, by simp, h.target, by simp⟩
  case swap i =>
    obtain ⟨hidle, hs⟩ := hs
    cases hn : s.notified with
    | true =>
      simp only [hn, if_true, Option.some.injEq] at hs
      subst hs
      refine h.setCall (by simp) fun hw _ => ?_
      exact (h.wakeup hw hn).imp_right (exists_sender_setCall (by simp [hidle]))
    | false =>
      simp only [hn, Bool.false_eq_true, if_false, Option.some.injEq] at hs
      subst hs
      exact h.setCall (by simp) fun _ _ => .inr ⟨i, by simp⟩
  case load i =>
    obtain ⟨-, hs⟩ := hs
    by_cases hzero : s.threadId = 0
    · exact Option.some.inj ((if_pos hzero).symm.trans hs) ▸ inv_load_zero h hok hzero
    · exact Option.some.inj ((if_neg hzero).symm.trans hs) ▸ inv_load_pos h hzero
  case kill i =>
    split at hs
    · next id hid =>
      cases hs
      have htid := h.target i id hid
      exact ⟨h.published, h.withdrawn, target_setCall h.target (by simp),
        fun _ _ => .inl (by simp [htid])⟩
    · cases hs

/-- While no step uses up the last wake-up of a set flag, the loop never hangs. -/
theorem not_lost_of_leavesWakeup (h : (machine tid ι).ReachesUnder LeavesWakeup s) : ¬ Lost s := by
  rintro ⟨hpc, hn, hpending, hcalls⟩
  have hinv : Inv tid s := h.invariant (fun _ hs => hs ▸ initial_inv) fun _ _ _ _ => step_inv
  rcases hinv.wakeup (.inr hpc) hn with hp | ⟨i, hi⟩
  · simp [hp] at hpending
  · exact hcalls i hi

/-- A set flag ahead of the wait with no wake-up left: all that is missing is the wait. -/
def Stranded (s : State ι) : Prop :=
  s.pc.BeforeWait ∧ s.notified = true ∧ s.pending = false ∧ ∀ i, ¬ (s.calls i).AboutToSend

theorem stranded_of_not_leavesWakeup (hs : step tid s a = some t) (hok : ¬ LeavesWakeup s a) :
    Stranded t := by
  cases a with
  | load i =>
    simp only [LeavesWakeup, Classical.not_imp, not_or, not_exists, not_and] at hok
    obtain ⟨hw, hn, hzero, hpending, hother⟩ := hok
    simp only [step, hzero, if_true, Option.ite_none_right_eq_some, Option.some.injEq] at hs
    obtain ⟨-, rfl⟩ := hs
    refine ⟨hw, hn, by simpa using hpending, fun j => ?_⟩
    by_cases hj : j = i
    · simp [hj]
    · rw [setCall_other s i _ hj]
      exact hother j hj
  | signal =>
    simp only [LeavesWakeup, Classical.not_imp, not_exists] at hok
    obtain ⟨hw, hn, hcalls⟩ := hok
    simp only [step, Option.ite_none_right_eq_some, Option.some.injEq] at hs
    obtain ⟨-, rfl⟩ := hs
    have hpc : s.pc ≠ .blocked := fun he => by simp [he] at hw
    exact ⟨by simpa [hpc] using hw, hn, rfl, hcalls⟩
  | _ => exact absurd trivial hok

/-- The run thread alone takes a stranded flag to the hang, if its future is not ready. -/
theorem lost_of_stranded (h : Stranded s) :
    ∃ as u, (machine tid ι).exec s as = some u ∧ Lost u := by
  obtain ⟨hw, hn, hpending, hcalls⟩ := h
  cases hpc : s.pc with
  | polling =>
    refine ⟨[.pollNotReady, .publish, .enter], { s with threadId := tid, pc := .blocked }, ?_,
      rfl, hn, hpending, hcalls⟩
    simp [Machine.exec, machine, step, hpc]
  | publish =>
    refine ⟨[.publish, .enter], { s with threadId := tid, pc := .blocked }, ?_,
      rfl, hn, hpending, hcalls⟩
    simp [Machine.exec, machine, step, hpc]
  | enter =>
    refine ⟨[.enter], { s with pc := .blocked }, ?_, rfl, hn, hpending, hcalls⟩
    simp [Machine.exec, machine, step, hpc]
  | _ => simp [hpc] at hw

/-- The loop never hangs in a run whose steps all leave a wake-up, and any step that does not
can be carried on to a hang. -/
theorem never_lost_while_leavesWakeup (tid : ℕ+) (ι : Type*) [DecidableEq ι] :
    (∀ s, (machine tid ι).ReachesUnder LeavesWakeup s → ¬ Lost s) ∧
    ∀ s a t, (machine tid ι).Reachable s → step tid s a = some t → ¬ LeavesWakeup s a →
      ∃ as u, (machine tid ι).exec t as = some u ∧ Lost u :=
  ⟨fun _ h => not_lost_of_leavesWakeup h,
    fun _ _ _ _ hs hok => lost_of_stranded (stranded_of_not_leavesWakeup hs hok)⟩

/-- A turn of the loop in which `notify` is called, loads the thread id, and sends no signal before
an event ends the wait. -/
def slowNotify (i : ℕ) : List (Act ℕ) :=
  [.reset, .swap i, .pollNotReady, .publish, .load i, .enter, .wake .events, .withdraw, .dispatched]

/-- A third call finds no thread id and the signal of the first one runs only the handler, but that
of the second one comes in the wait. -/
def threeNotifies : List (Act ℕ) :=
  slowNotify 0 ++ slowNotify 1 ++
    [.reset, .swap 2, .load 2, .kill 0, .signal, .pollNotReady, .publish, .enter, .kill 1]

theorem threeNotifies_not_lost : ∃ s,
    (machine 1 ℕ).exec initial threeNotifies = some s ∧
      s.pc = .blocked ∧ s.notified = true ∧ s.pending = true ∧ s.calls 2 = .returned (some false) ∧
      ¬ Lost s := by
  have hrun : (machine 1 ℕ).exec initial threeNotifies = some _ := rfl
  refine ⟨_, hrun, rfl, rfl, rfl, rfl, (never_lost_while_leavesWakeup 1 ℕ).1 _
    (.exec (.init rfl) ?_ hrun)⟩
  have hpublished : (1 : ℕ) ≠ 0 := by decide
  refine .cons trivial rfl <| .cons trivial rfl <| .cons trivial rfl <| .cons trivial rfl <|
    .cons (fun _ _ hzero => absurd hzero hpublished) rfl <| .cons trivial rfl <|
    .cons trivial rfl <| .cons trivial rfl <| .cons trivial rfl <| .cons trivial rfl <|
    .cons trivial rfl <| .cons trivial rfl <| .cons trivial rfl <|
    .cons (fun _ _ hzero => absurd hzero hpublished) rfl <| .cons trivial rfl <|
    .cons trivial rfl <| .cons trivial rfl <| .cons trivial rfl <| .cons trivial rfl <|
    .cons trivial rfl <| .cons (fun _ _ _ => .inr ⟨1, ?_, trivial⟩) rfl <| .cons trivial rfl <|
    .cons (fun _ _ => ⟨1, trivial⟩) rfl <| .cons trivial rfl <| .cons trivial rfl <|
    .cons trivial rfl <| .cons trivial rfl trivial
  decide

/-- The future returns `NotReady`, and only then, with `thread_id` still zero, it is notified. -/
def notifyBeforePublish : List (Act Unit) :=
  [.reset, .pollNotReady, .swap (), .load (), .publish, .enter]

/-- The signal arrives after `thread_id` is published and before `epoll_pwait` is entered. -/
def signalBeforeWait : List (Act Unit) :=
  [.reset, .pollNotReady, .publish, .swap (), .load (), .kill (), .signal, .enter]

theorem notification_lost :
    (∃ s, (machine 1 Unit).exec initial notifyBeforePublish = some s ∧ Lost s) ∧
    (∃ s, (machine 1 Unit).exec initial signalBeforeWait = some s ∧ Lost s) ∧
    ¬ ∀ s, (machine 1 Unit).Reachable s → ¬ Lost s := by
  have hfirst : ∃ s, (machine 1 Unit).exec initial notifyBeforePublish = some s ∧ Lost s :=
    ⟨_, rfl, rfl, rfl, rfl, fun _ => id⟩
  have hsecond : ∃ s, (machine 1 Unit).exec initial signalBeforeWait = some s ∧ Lost s :=
    ⟨_, rfl, rfl, rfl, rfl, fun _ => id⟩
  refine ⟨hfirst, hsecond, fun h => ?_⟩
  obtain ⟨s, hrun, hlost⟩ := hfirst
  exact h s (Machine.reachable_of_exec rfl hrun) hlost

end CompleteIo.InterruptNotify
