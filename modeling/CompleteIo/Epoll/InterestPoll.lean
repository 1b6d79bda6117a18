import CompleteIo.Epoll.InterestList

namespace CompleteIo.InterestPoll

/-- Where a call of `FutureInterest::poll` is: before the load of `fired`, before the register,
or returned. -/
inductive PollPc
  | load
  | register
  | ready
  | notReady
  deriving DecidableEq

/-- The latest `poll` of an interest: the task that makes it, and whether that task has been
notified since it began. -/
structure Poll (T : Type*) where
  task : T
  pc : PollPc
  notified : Bool

structure State (ι T : Type*) where
  registration : FuturesRegistration.State ι T
  returned : ι → Bool
  polls : ι → Option (Poll T)

inductive Act (ι T : Type*)
  | registration (a : FuturesRegistration.Act ι T)
  | pollBegin (x : ι) (task : T)
  | load (x : ι)
  | register (x : ι)

variable {ι T : Type*}

def Poll.running (p : Poll T) : Bool := p.pc = .load || p.pc = .register

def notifiedTask (r : FuturesRegistration.State ι T) : FuturesRegistration.Act ι T → Option T
  | .notify => r.lock.notifying.bind r.task
  | _ => none

def returnedInterest (r : FuturesRegistration.State ι T) : FuturesRegistration.Act ι T → Option ι
  | .addEnd ok =>
    match r.lock with
    | .adding x events old => if old.contains events || ok then some x else none
    | _ => none
  | _ => none

section Step

variable [DecidableEq ι] [DecidableEq T]

omit [DecidableEq ι] in
def Poll.notify (task : Option T) (p : Poll T) : Poll T :=
  { p with notified := p.notified || task = some p.task }

omit [DecidableEq T] in
def State.setPoll (s : State ι T) (x : ι) (p : Poll T) : State ι T :=
  { s with polls := Function.update s.polls x (some p) }

def State.act (s : State ι T) (a : FuturesRegistration.Act ι T)
    (r : FuturesRegistration.State ι T) : State ι T where
  registration := r
  returned x := s.returned x || returnedInterest s.registration a = some x
  polls x := (s.polls x).map (Poll.notify (notifiedTask s.registration a))

def step (s : State ι T) : Act ι T → Option (State ι T)
  -- An interest is registered by its polls only.
  | .registration (.register ..) => none
  | .registration a => (FuturesRegistration.step s.registration a).map (s.act a)
  | .pollBegin x task =>
    if s.returned x ∧ (s.polls x).any Poll.running = false then
      some (s.setPoll x ⟨task, .load, false⟩)
    else none
  | .load x =>
    match s.polls x with
    | some ⟨task, .load, notified⟩ =>
      some (s.setPoll x
        ⟨task, if s.registration.fired x then .ready else .register, notified⟩)
    | _ => none
  | .register x =>
    match s.polls x with
    | some ⟨task, .register, notified⟩ =>
      (FuturesRegistration.step s.registration (.register x task)).map fun r =>
        { s with registration := r }.setPoll x ⟨task, .notReady, notified⟩
    | _ => none

def initial : State ι T where
  registration := FuturesRegistration.initial
  returned _ := false
  polls _ := none

/-- The interests of a registration, each polled by one task after the other, from any thread. -/
def machine (ι T : Type*) [DecidableEq ι] [DecidableEq T] : Machine (State ι T) (Act ι T) where
  init s := s = initial
  step := step

inductive Step (s : State ι T) : Act ι T → State ι T → Prop
  | registration {a : FuturesRegistration.Act ι T} {r : FuturesRegistration.State ι T}
      (hstep : FuturesRegistration.step s.registration a = some r)
      (hregister : ∀ x task, a ≠ .register x task) : Step s (.registration a) (s.act a r)
  | pollBegin {x : ι} {task : T} (hreturned : s.returned x = true)
      (hrunning : (s.polls x).any Poll.running = false) :
      Step s (.pollBegin x task) (s.setPoll x ⟨task, .load, false⟩)
  | load {x : ι} {task : T} {notified : Bool} (hpoll : s.polls x = some ⟨task, .load, notified⟩) :
      Step s (.load x) (s.setPoll x
        ⟨task, if s.registration.fired x then .ready else .register, notified⟩)
  | register {x : ι} {task : T} {notified : Bool} {r : FuturesRegistration.State ι T}
      (hpoll : s.polls x = some ⟨task, .register, notified⟩)
      (hstep : FuturesRegistration.step s.registration (.register x task) = some r) :
      Step s (.register x) ({ s with registration := r }.setPoll x ⟨task, .notReady, notified⟩)

theorem step_cases {s t : State ι T} {a : Act ι T} (hs : step s a = some t) : Step s a t := by
  cases a with
  | registration a =>
    cases a
    case register => simp [step] at hs
    all_goals
      simp only [step, Option.map_eq_some_iff] at hs
      obtain ⟨r, hr, rfl⟩ := hs
      exact .registration hr (by simp)
  | pollBegin x task =>
    simp only [step, Option.ite_none_right_eq_some, Option.some.injEq] at hs
    obtain ⟨⟨hreturned, hrunning⟩, rfl⟩ := hs
    exact .pollBegin hreturned hrunning
  | load x =>
    simp only [step] at hs
    split at hs
    · rename_i hpoll
      exact Option.some.inj hs ▸ .load hpoll
    · cases hs
  | register x =>
    simp only [step] at hs
    split at hs
    · rename_i hpoll
      obtain ⟨r, hr, rfl⟩ := Option.map_eq_some_iff.mp hs
      exact .register hpoll hr
    · cases hs

end Step

/-- The task of the poll has been notified, or it is registered and the notification is still to
come. -/
def Served (s : State ι T) (x : ι) (p : Poll T) : Prop :=
  s.registration.fired x = false ∧ s.registration.task x = some p.task ∨
    s.registration.lock.notifying = some x ∧ s.registration.task x = some p.task ∨
    p.notified = true

/-- No latest poll that returned `NotReady` has missed the firing. -/
def NeverMisses (s : State ι T) : Prop :=
  ∀ x p, s.polls x = some p → p.pc = .notReady → Served s x p

/-- The notification does not come between the load and the register of a poll, unless it goes
to the task of that poll or that task has been notified already. -/
def NotifiesPoller (s : State ι T) : Act ι T → Prop
  | .registration .notify => ∀ x p, s.registration.lock.notifying = some x →
      s.polls x = some p → p.pc = .register →
      s.registration.task x = some p.task ∨ p.notified = true
  | _ => True

/-- A poll that has loaded `false` or has returned `NotReady` is in time as long as the
notification is to come, which after the register goes to its own task. -/
def InTime (s : State ι T) (x : ι) (p : Poll T) : Prop :=
  p.notified = true ∨ ¬ s.registration.Dead x ∧
    (p.pc = .notReady → s.registration.task x = some p.task)

theorem InTime.served {s : State ι T} {x : ι} {p : Poll T} (h : InTime s x p)
    (hpc : p.pc = .notReady) : Served s x p := by
  rcases h with hnotified | ⟨hdead, htask⟩
  · exact .inr (.inr hnotified)
  · by_cases hnotifying : s.registration.lock.notifying = some x
    · exact .inr (.inl ⟨hnotifying, htask hpc⟩)
    · refine .inl ⟨?_, htask hpc⟩
      by_contra hfired
      exact hdead ⟨by simpa using hfired, hnotifying⟩

section Proofs

variable [DecidableEq ι] [DecidableEq T] {s t : State ι T} {x y : ι} {p : Poll T} {a : Act ι T}

omit [DecidableEq T] in
@[simp] theorem setPoll_self : (s.setPoll x p).polls x = some p := Function.update_self ..

omit [DecidableEq T] in
theorem setPoll_other (h : y ≠ x) : (s.setPoll x p).polls y = s.polls y :=
  Function.update_of_ne h ..

structure Inv (s : State ι T) : Prop where
  registration : FuturesRegistration.Inv s.registration
  list : FuturesRegistration.ListInv s.registration
  allocated : ∀ x, s.returned x = true → s.registration.cell x ≠ none
  polled : ∀ x p, s.polls x = some p → s.returned x = true

def AllInTime (s : State ι T) : Prop :=
  ∀ x p, s.polls x = some p → p.pc = .register ∨ p.pc = .notReady → InTime s x p

omit [DecidableEq ι] [DecidableEq T] in
theorem initial_inv : Inv (initial : State ι T) where
  registration := .of_free rfl
  list := FuturesRegistration.initial_listInv
  allocated := by simp [initial]
  polled := by simp [initial]

omit [DecidableEq ι] [DecidableEq T] in
theorem initial_allInTime : AllInTime (initial : State ι T) := fun _ _ hp => by cases hp

omit [DecidableEq T] in
theorem Inv.setPoll (h : Inv s) (hreturned : s.returned x = true) : Inv (s.setPoll x p) where
  registration := h.registration
  list := h.list
  allocated := h.allocated
  polled y q hq := by
    by_cases hy : y = x
    · exact hy ▸ hreturned
    · exact h.polled y q (setPoll_other hy ▸ hq)

omit [DecidableEq T] in
/-- A new latest poll does not matter to the other interests. -/
theorem AllInTime.setPoll (h : AllInTime s)
    (hp : p.pc = .register ∨ p.pc = .notReady → InTime s x p) : AllInTime (s.setPoll x p) := by
  intro y q hq hpc
  by_cases hy : y = x
  · subst hy
    obtain rfl : p = q := Option.some.inj (setPoll_self.symm.trans hq)
    exact hp hpc
  · exact h y q (setPoll_other hy ▸ hq) hpc

omit [DecidableEq ι] [DecidableEq T] in
/-- An interest that `add_interest` returns has been pushed to the list. -/
theorem returnedInterest_allocated {r : FuturesRegistration.State ι T}
    {b : FuturesRegistration.Act ι T} (h : FuturesRegistration.Inv r)
    (hlist : FuturesRegistration.ListInv r) (hx : returnedInterest r b = some x) :
    r.cell x ≠ none := by
  cases b <;> simp only [returnedInterest, reduceCtorEq] at hx
  split at hx
  · rename_i hlock
    simp only [Option.ite_none_right_eq_some, Option.some.injEq] at hx
    obtain ⟨-, rfl⟩ := hx
    obtain ⟨earlier, hi, -⟩ := h.adding _ _ _ hlock
    exact hlist.allocated _ (by simp [FuturesRegistration.State.ids, hi])
  · cases hx

section Registration

variable {r : FuturesRegistration.State ι T} {b : FuturesRegistration.Act ι T} {task : T}

theorem inv_act (h : Inv s) (hstep : FuturesRegistration.step s.registration b = some r) :
    Inv (s.act b r) where
  registration := FuturesRegistration.step_inv h.registration hstep
  list := FuturesRegistration.step_listInv h.registration h.list hstep
  allocated y hy := by
    refine FuturesRegistration.cell_step hstep ?_
    simp only [State.act, Bool.or_eq_true, decide_eq_true_eq] at hy
    rcases hy with hy | hy
    · exact h.allocated y hy
    · exact returnedInterest_allocated h.registration h.list hy
  polled y q hq := by
    obtain ⟨q, hq', -⟩ := Option.map_eq_some_iff.mp hq
    simp [State.act, h.polled y q hq']

omit [DecidableEq T] in
theorem inv_register (h : Inv s)
    (hstep : FuturesRegistration.step s.registration (.register x task) = some r) :
    Inv { s with registration := r } where
  registration := FuturesRegistration.step_inv h.registration hstep
  list := FuturesRegistration.step_listInv h.registration h.list hstep
  allocated y hy := FuturesRegistration.cell_step hstep (h.allocated y hy)
  polled := h.polled

omit [DecidableEq ι] in
/-- The notification that an interest waits for wakes the task that is registered. -/
theorem notify_registered (hx : r.lock.notifying = some x) (htask : r.task x = some p.task) :
    (p.notify (notifiedTask r .notify)).notified = true := by
  have hwoken : notifiedTask r .notify = some p.task := by rw [notifiedTask, hx, ← htask]; rfl
  simp [Poll.notify, hwoken]

theorem allInTime_act (h : Inv s) (hall : AllInTime s) (hok : NotifiesPoller s (.registration b))
    (hstep : FuturesRegistration.step s.registration b = some r)
    (hregister : ∀ x task, b ≠ .register x task) : AllInTime (s.act b r) := by
  intro x q hq hpc
  obtain ⟨p, hp, rfl⟩ := Option.map_eq_some_iff.mp hq
  have hcell := h.allocated x (h.polled x p hp)
  rcases hall x p hp hpc with hnotified | ⟨hdead, htask⟩
  · exact .inl (by simp [Poll.notify, hnotified])
  by_cases hnotify : b = .notify ∧ s.registration.lock.notifying = some x
  · obtain ⟨rfl, hx⟩ := hnotify
    left
    rcases hpc with hpc | hpc
    · rcases hok x p hx hp hpc with htask | hnotified
      · exact notify_registered hx htask
      · simp [Poll.notify, hnotified]
    · exact notify_registered hx (htask hpc)
  · have hother : b = .notify → s.registration.lock.notifying ≠ some x := fun hb hx =>
      hnotify ⟨hb, hx⟩
    refine .inr ⟨?_, fun hpc => ?_⟩
    · exact (FuturesRegistration.dead_step h.registration h.list hstep hcell hother).not.mpr hdead
    · exact (FuturesRegistration.task_step hstep hcell (hregister x) hother).trans (htask hpc)

omit [DecidableEq T] in
/-- A register before its poll returns is none of the business of the other interests. -/
theorem allInTime_register (h : Inv s) (hall : AllInTime s) (hx : s.polls x = some p)
    (hpc : p.pc = .register)
    (hstep : FuturesRegistration.step s.registration (.register x task) = some r) :
    AllInTime { s with registration := r } := by
  intro y q hq hqpc
  have hcell := h.allocated y (h.polled y q hq)
  refine (hall y q hq hqpc).imp id fun ⟨hdead, htask⟩ => ⟨?_, fun hnotReady => ?_⟩
  · exact (FuturesRegistration.dead_step h.registration h.list hstep hcell (by simp)).not.mpr hdead
  · have hyx : y ≠ x := by
      rintro rfl
      obtain rfl : p = q := Option.some.inj (hx.symm.trans hq)
      simp [hpc] at hnotReady
    rw [← htask hnotReady]
    exact FuturesRegistration.task_step hstep hcell (by simp [hyx.symm]) (by simp)

omit [DecidableEq T] in
theorem task_register (hcell : s.registration.cell x ≠ none)
    (hstep : FuturesRegistration.step s.registration (.register x task) = some r) :
    r.task x = some task := by
  obtain ⟨c, hc⟩ := Option.ne_none_iff_exists'.mp hcell
  simp only [FuturesRegistration.step, Option.some.injEq] at hstep
  simp [← hstep, FuturesRegistration.State.task, FuturesRegistration.State.updateCell, hc]

end Registration

theorem step_inv (h : Inv s) (hs : step s a = some t) : Inv t := by
  cases step_cases hs with
  | registration hstep => exact inv_act h hstep
  | pollBegin hreturned => exact h.setPoll hreturned
  | load hpoll => exact h.setPoll (h.polled _ _ hpoll)
  | register hpoll hstep => exact (inv_register h hstep).setPoll (h.polled _ _ hpoll)

theorem reachable_inv (h : (machine ι T).Reachable s) : Inv s :=
  h.invariant (fun _ hs => hs ▸ initial_inv) fun _ _ _ _ hi _ hs => step_inv hi hs

theorem step_allInTime (h : Inv s) (hall : AllInTime s) (hok : NotifiesPoller s a)
    (hs : step s a = some t) : AllInTime t := by
  cases step_cases hs with
  | registration hstep hregister => exact allInTime_act h hall hok hstep hregister
  | pollBegin => exact hall.setPoll (by simp)
  | load hpoll =>
    refine hall.setPoll fun hpc => .inr ⟨fun hdead => ?_, fun hpc => ?_⟩
    · simp [hdead.1] at hpc
    · split at hpc <;> cases hpc
  | register hpoll hstep =>
    refine (allInTime_register h hall hpoll rfl hstep).setPoll fun _ => ?_
    refine (allInTime_register h hall hpoll rfl hstep _ _ hpoll (.inl rfl)).imp id ?_
    exact fun ⟨hdead, _⟩ =>
      ⟨hdead, fun _ => task_register (h.allocated _ (h.polled _ _ hpoll)) hstep⟩

theorem neverMisses_of_notifiesPoller (h : (machine ι T).ReachesUnder NotifiesPoller s) :
    NeverMisses s := by
  have hall : AllInTime s := h.invariant (fun _ hs => hs ▸ initial_allInTime)
    fun _ _ _ hr hi hok hs => step_allInTime (reachable_inv hr.reachable) hi hok hs
  exact fun x p hp hpc => (hall x p hp (.inr hpc)).served hpc

/-- The register that follows comes too late for the task that makes it. -/
theorem missed_of_not_notifiesPoller (h : Inv s) (hs : step s a = some t)
    (hok : ¬ NotifiesPoller s a) :
    ∃ as u, (machine ι T).exec t as = some u ∧ ¬ NeverMisses u := by
  unfold NotifiesPoller at hok
  split at hok
  case h_2 => exact absurd trivial hok
  simp only [not_forall, not_or, exists_prop, Bool.not_eq_true] at hok
  obtain ⟨x, ⟨task, pc, notified⟩, hx, hp, rfl, htask, rfl⟩ := hok
  cases step_cases hs with
  | @registration _ r hstep =>
    have hwoken : notifiedTask s.registration .notify ≠ some task := by
      rwa [notifiedTask, hx, Option.bind_some]
    have hpoll : (s.act .notify r).polls x = some ⟨task, .register, false⟩ := by
      simp [State.act, hp, Poll.notify, hwoken]
    have hdead : r.Dead x := FuturesRegistration.dead_notify h.list hstep hx
    have hcell : r.cell x ≠ none :=
      FuturesRegistration.cell_step hstep (h.allocated x (h.polled x _ hp))
    let u := r.updateCell x fun c => { c with task := some task }
    have hu : u.Dead x := by
      have hinv := FuturesRegistration.step_inv h.registration hstep
      have hlist := FuturesRegistration.step_listInv h.registration h.list hstep
      exact (FuturesRegistration.dead_step (a := .register x task) hinv hlist rfl hcell
        (by simp)).mpr hdead
    refine ⟨[.register x], { s.act .notify r with registration := u }.setPoll x
      ⟨task, .notReady, false⟩, ?_, fun hnever => ?_⟩
    · simp only [Machine.exec, machine, step, hpoll]
      rfl
    · rcases hnever x _ setPoll_self rfl with h | h | h
      · exact absurd (hu.1.symm.trans h.1) (by simp)
      · exact hu.2 h.1
      · cases h

/-- No poll misses the firing in a run that never notifies another task between the load and the
register of a poll, and any step that does can be carried on to a poll that has missed it. -/
theorem never_misses_while_notifiesPoller (ι T : Type*) [DecidableEq ι] [DecidableEq T] :
    (∀ s, (machine ι T).ReachesUnder NotifiesPoller s → NeverMisses s) ∧
    ∀ s a t, (machine ι T).Reachable s → step s a = some t → ¬ NotifiesPoller s a →
      ∃ as u, (machine ι T).exec t as = some u ∧ ¬ NeverMisses u :=
  ⟨fun _ h => neverMisses_of_notifiesPoller h,
    fun _ _ _ h hs hok => missed_of_not_notifiesPoller (reachable_inv h) hs hok⟩

end Proofs

/-- The first `poll` is interrupted by the whole firing between its load and its register. -/
def fireDuringPoll (task : ℕ) : List (Act Unit ℕ) :=
  [.registration (.addBegin () EventMask.READ 0), .registration (.addEnd true),
    .pollBegin () task, .load (), .registration (.deliver EventMask.READ.bits),
    .registration (.handleBegin EventMask.READ.bits), .registration .test,
    .registration .storeFired, .registration .notify, .register ()]

/-- The task that added the interest polls it itself and is woken. -/
theorem fireDuringPoll_neverMisses : ∃ s,
    (machine Unit ℕ).exec initial (fireDuringPoll 0) = some s ∧
      s.polls () = some ⟨0, .notReady, true⟩ ∧ NeverMisses s := by
  refine ⟨_, rfl, rfl, (never_misses_while_notifiesPoller Unit ℕ).1 _ <| .exec (.init rfl) ?_
    (show (machine Unit ℕ).exec initial (fireDuringPoll 0) = some _ from rfl)⟩
  refine .cons trivial rfl <| .cons trivial rfl <| .cons trivial rfl <| .cons trivial rfl <|
    .cons trivial rfl <| .cons trivial rfl <| .cons trivial rfl <| .cons trivial rfl <|
    .cons (fun _ p _ hp _ => .inl ?_) rfl <| .cons trivial rfl trivial
  exact Option.some.inj hp ▸ rfl

/-- Task 1 polls an interest that task 0 has added: task 0 is woken, and task 1 waits for good. -/
theorem firing_missed :
    (∃ s, (machine Unit ℕ).exec initial (fireDuringPoll 1) = some s ∧
      s.polls () = some ⟨1, .notReady, false⟩ ∧ ¬ NeverMisses s) ∧
    ¬ ∀ s, (machine Unit ℕ).Reachable s → NeverMisses s := by
  have hrun : ∃ s, (machine Unit ℕ).exec initial (fireDuringPoll 1) = some s ∧
      s.polls () = some ⟨1, .notReady, false⟩ ∧ ¬ NeverMisses s := by
    refine ⟨_, rfl, rfl, fun h => ?_⟩
    rcases h () _ rfl rfl with ⟨h, -⟩ | ⟨h, -⟩ | h <;> cases h
  refine ⟨hrun, fun h => ?_⟩
  obtain ⟨s, hrun, -, hmissed⟩ := hrun
  exact hmissed (h s (Machine.reachable_of_exec rfl hrun))

end CompleteIo.InterestPoll
