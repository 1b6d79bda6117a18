import CompleteIo.Iocp.PendingBlocks

namespace CompleteIo.CompletionNotify

open OverlappedFuture (Future FutureState Move Moves)

/-- What a poll has registered, and whether its task has been notified by the packet of the
operation since. -/
structure Poll (X T : Type*) where
  op : X
  task : T
  notified : Bool

structure State (F X T : Type*) where
  futures : OverlappedFuture.State F X T
  polls : F → Option (Poll X T)

variable {F X T : Type*}

def initial : State F X T where
  futures := OverlappedFuture.initial
  polls _ := none

/-- A first poll registers its task in `OverlappedTask::new`, a later one in `register`. -/
def record (latest : Option (Poll X T)) : Move X T → Option (Poll X T)
  | .pollBegin x task => some ⟨x, task, false⟩
  | .register (some task) => latest.map fun p => { p with task := task, notified := false }
  | _ => latest

section Step

variable [DecidableEq X] [DecidableEq T]

def Poll.wake (x : X) (registered : Option T) (p : Poll X T) : Poll X T :=
  if p.op = x ∧ registered = some p.task then { p with notified := true } else p

variable [DecidableEq F]

def polls (s : State F X T) : OverlappedFuture.Act F X T → F → Option (Poll X T)
  | .move f m => Function.update s.polls f (record (s.polls f) m)
  | .port (.notify x) => fun f => (s.polls f).map (Poll.wake x (s.futures.tasks.task x))
  | _ => s.polls

def step (s : State F X T) (a : OverlappedFuture.Act F X T) : Option (State F X T) :=
  (OverlappedFuture.step s.futures a).map fun futures => ⟨futures, polls s a⟩

def machine (F X T : Type*) [DecidableEq F] [DecidableEq X] [DecidableEq T] :
    Machine (State F X T) (OverlappedFuture.Act F X T) where
  init s := s = initial
  step := step

end Step

/-- The latest poll that has registered has found the operation pending. -/
def NotReady : FutureState X → Prop
  | .submitted _ | .pending _ | .polling _ | .storing _ => True
  | _ => False

def Operating : FutureState X → Prop
  | .initial | .none _ => False
  | _ => True

/-- The notification of the packet is still to come, with the task of the poll registered. -/
def ToCome (tasks : OverlappedTask.State X T) (p : Poll X T) : Prop :=
  p.op ∈ tasks.toNotify ∧ tasks.task p.op = some p.task

/-- After a `NotReady` the notification of the task that has polled is still to come, or has come
since that poll registered. -/
def NoneMissed (s : State F X T) : Prop :=
  ∀ f fut, s.futures.future f = some fut → NotReady fut.state →
    ∃ p, s.polls f = some p ∧ fut.state.task = some p.op ∧
      (p.notified = true ∨ ToCome s.futures.tasks p)

/-- What the latest poll of a future with an operation can rely on. -/
structure Watched (tasks : OverlappedTask.State X T) (state : FutureState X) (p : Poll X T) :
    Prop where
  op : state.task = some p.op
  registered : p.notified = true ∨ tasks.task p.op = some p.task
  toNotify : NotReady state → p.notified = true ∨ p.op ∈ tasks.toNotify

def Inv (s : State F X T) : Prop :=
  ∀ f fut, s.futures.future f = some fut → Operating fut.state →
    ∃ p, s.polls f = some p ∧ Watched s.futures.tasks fut.state p

theorem Watched.frame {tasks r : OverlappedTask.State X T} {state state' : FutureState X}
    {p : Poll X T} (h : Watched tasks state p) (hop : state'.task = state.task)
    (hready : NotReady state' → NotReady state) (htask : r.task p.op = tasks.task p.op)
    (hnotify : p.op ∈ tasks.toNotify → p.op ∈ r.toNotify) : Watched r state' p where
  op := hop.trans h.op
  registered := h.registered.imp_right htask.trans
  toNotify hn := (h.toNotify (hready hn)).imp_right hnotify

section Moves

variable {status : X → Bool} {k : OverlappedFuture.Kind}
  {o : OverlappedFuture.Block → OverlappedFuture.Owner} {state : FutureState X} {m : Move X T}
  {fut' : Future X} {as : List (OverlappedTask.Act X T)} {y : X}

/-- A move registers for the task of its own future alone. -/
theorem registers_of_moves (hmove : Moves status k o state m fut' as) :
    ∀ b ∈ as, b.registers = some y → fut'.state.task = some y := by
  cases hmove <;> simp [OverlappedTask.Act.registers, Future.released]

/-- Only the port notifies. -/
theorem not_notify_of_moves (hmove : Moves status k o state m fut' as) :
    ∀ b ∈ as, b ≠ .notify y := by
  cases hmove <;> simp

end Moves

section Proofs

variable [DecidableEq F] [DecidableEq X] [DecidableEq T] {s t : State F X T}
  {a : OverlappedFuture.Act F X T} {f g : F} {fut fut' gut : Future X} {x y : X}
  {r : OverlappedTask.State X T}

theorem reachable_futures (h : (machine F X T).Reachable s) :
    (OverlappedFuture.machine F X T).Reachable s.futures := by
  induction h with
  | init h => exact h ▸ .init rfl
  | step _ _ hs hr =>
    obtain ⟨r, hstep, rfl⟩ := Option.map_eq_some_iff.mp hs
    exact .step hr trivial hstep

omit [DecidableEq F] in
/-- A notification that finds the task of the poll registered reaches it. -/
theorem notified_wake {p : Poll X T} {registered : Option T}
    (h : p.notified = true ∨ registered = some p.task) :
    (p.wake p.op registered).notified = true := by
  by_cases hregistered : registered = some p.task
  · simp [Poll.wake, hregistered]
  · simpa [Poll.wake, hregistered] using h

theorem wake_other {p : Poll X T} {registered : Option T} (h : p.op ≠ x) :
    p.wake x registered = p := by simp [Poll.wake, h]

omit [DecidableEq F] [DecidableEq T] in
/-- The poll that a move belongs to has registered before it finds the operation pending. -/
theorem watched_move {m : Move X T} {as : List (OverlappedTask.Act X T)} (h : Inv s)
    (hpending : ∀ x, s.futures.tasks.statusPending x = true → x ∈ s.futures.tasks.inProgress)
    (hf : s.futures.future f = some fut)
    (hmove : Moves s.futures.tasks.statusPending fut.kind fut.owner fut.state m fut' as)
    (hexec : (OverlappedTask.machine X T).exec s.futures.tasks as = some r)
    (hop : Operating fut'.state) :
    ∃ p, record (s.polls f) m = some p ∧ Watched r fut'.state p := by
  have hnotify := fun y => OverlappedTask.toNotify_exec (not_notify_of_moves (y := y) hmove) hexec
  have htask := fun y (h : ∀ b ∈ as, b.registers ≠ some y) => OverlappedTask.task_exec h hexec
  have hlatest := h f fut hf
  obtain ⟨k, state, o⟩ := fut
  cases hmove with
  | @pollBegin x task =>
    refine ⟨⟨x, task, false⟩, rfl, rfl, .inr ?_, False.elim⟩
    obtain ⟨u, hnew, hrest⟩ := Option.bind_eq_some_iff.mp hexec
    rw [OverlappedTask.task_exec (by simp [OverlappedTask.Act.registers]) hrest]
    have hnew : OverlappedTask.Step _ (.new x task) u := OverlappedTask.step_cases hnew
    cases hnew with
    | new => exact Function.update_self ..
  | @submitted x =>
    obtain ⟨p, hp, hw⟩ := hlatest trivial
    have htask := htask p.op (by simp [OverlappedTask.Act.registers])
    refine ⟨p, hp, hw.op, hw.registered.imp_right htask.trans, fun _ => .inr ?_⟩
    obtain rfl : x = p.op := Option.some.inj hw.op
    rw [Machine.exec_singleton] at hexec
    have hsubmit : OverlappedTask.Step _ (.submit p.op .pending) r :=
      OverlappedTask.step_cases hexec
    cases hsubmit with
    | pending => simp [OverlappedTask.State.toNotify]
  | storeFirst | store | poll =>
    obtain ⟨p, hp, hw⟩ := hlatest trivial
    have htask := htask p.op (by simp [OverlappedTask.Act.registers])
    exact ⟨p, hp, hw.frame rfl (fun _ => trivial) htask (hnotify p.op)⟩
  | @register x task =>
    obtain ⟨p, hp, hw⟩ := hlatest trivial
    obtain rfl : x = p.op := Option.some.inj hw.op
    refine ⟨⟨p.op, task, false⟩, by rw [hp]; rfl, rfl, .inr ?_, False.elim⟩
    rw [Machine.exec_singleton] at hexec
    have hregister : OverlappedTask.Step _ (.register p.op task) r :=
      OverlappedTask.step_cases hexec
    cases hregister with
    | register => exact Function.update_self ..
  | @notReady x hstatus =>
    obtain ⟨p, hp, hw⟩ := hlatest trivial
    have htask := htask p.op (by simp [OverlappedTask.Act.registers])
    refine ⟨p, hp, hw.op, hw.registered.imp_right htask.trans, fun _ => .inr (hnotify p.op ?_)⟩
    -- The status is read after the registration, so the packet is yet to come.
    obtain rfl : x = p.op := Option.some.inj hw.op
    simp [OverlappedTask.State.toNotify, hpending _ hstatus]
  | pollFails | failed | completed | registerPanics | ready | dropInitial | dropFields
  | dropCancelled | dropLeaking => exact hop.elim

theorem watched_port {b : OverlappedTask.Act X T} {p : Poll X T} {state : FutureState X}
    (hport : OverlappedFuture.ofPort b = true)
    (hstep : OverlappedTask.step s.futures.tasks b = some r) (hp : s.polls f = some p)
    (hw : Watched s.futures.tasks state p) :
    ∃ q, polls s (.port b) f = some q ∧ Watched r state q := by
  by_cases hb : b = .notify p.op
  · have hnotified := notified_wake hw.registered
    subst hb
    have hop : (p.wake p.op (s.futures.tasks.task p.op)).op = p.op := by
      unfold Poll.wake
      split <;> rfl
    exact ⟨_, by simp only [polls, hp, Option.map_some], hop.symm ▸ hw.op, .inl hnotified,
      fun _ => .inl hnotified⟩
  · have hpolls : polls s (.port b) f = some p := by
      cases b <;> simp only [polls, hp]
      case notify y =>
        rw [Option.map_some, wake_other fun hop => hb (congrArg _ hop.symm)]
    have hregisters : b.registers ≠ some p.op := by
      cases b <;> simp_all [OverlappedTask.Act.registers, OverlappedFuture.ofPort]
    exact ⟨p, hpolls, hw.frame rfl id (OverlappedTask.task_step hregisters hstep)
      (OverlappedTask.toNotify_step hb hstep)⟩

theorem step_inv (hfutures : OverlappedFuture.Inv s.futures)
    (hpending : ∀ x, s.futures.tasks.statusPending x = true → x ∈ s.futures.tasks.inProgress)
    (h : Inv s) (hs : step s a = some t) : Inv t := by
  obtain ⟨r, hstep, rfl⟩ := Option.map_eq_some_iff.mp hs
  have hfutures' := OverlappedFuture.step_inv hfutures hstep
  intro g gut hg hop
  cases OverlappedFuture.step_cases hstep with
  | @create f kind hf =>
    by_cases hgf : g = f
    · subst hgf
      obtain rfl := Option.some.inj (OverlappedFuture.setFuture_self.symm.trans hg)
      exact hop.elim
    · exact h g gut ((OverlappedFuture.setFuture_other hgf).symm.trans hg) hop
  | @move f fut fut' m as r hf hmove hexec =>
    by_cases hgf : g = f
    · subst hgf
      obtain rfl := Option.some.inj (OverlappedFuture.setFuture_self.symm.trans hg)
      obtain ⟨p, hp, hw⟩ := watched_move h hpending hf hmove hexec hop
      exact ⟨p, (Function.update_self ..).trans hp, hw⟩
    · have hgut := (OverlappedFuture.setFuture_other hgf).symm.trans hg
      obtain ⟨p, hp, hw⟩ := h g gut hgut hop
      refine ⟨p, (Function.update_of_ne hgf ..).trans hp, hw.frame rfl id ?_ ?_⟩
      · refine OverlappedTask.task_exec (fun b hb hregisters => ?_) hexec
        have hown := registers_of_moves hmove b hb hregisters
        exact hgf (hfutures'.unique g f gut fut' p.op hg OverlappedFuture.setFuture_self hw.op hown)
      · exact OverlappedTask.toNotify_exec (not_notify_of_moves hmove) hexec
  | port hport hb =>
    obtain ⟨p, hp, hw⟩ := h g gut hg hop
    exact watched_port hport hb hp hw

theorem reachable_inv (h : (machine F X T).Reachable s) : Inv s :=
  h.invariant (fun _ hs => hs ▸ fun _ _ hf => by cases hf) fun _ _ _ hr hi _ hs =>
    step_inv (OverlappedFuture.reachable_inv (reachable_futures hr))
      (fun _ => OverlappedTask.inProgress_of_statusPending
        (OverlappedFuture.reachable_tasks (reachable_futures hr))) hi hs

omit [DecidableEq F] [DecidableEq X] [DecidableEq T] in
theorem noneMissed_of_inv (h : Inv s) : NoneMissed s := by
  intro f fut hf hready
  have hop : Operating fut.state := by
    cases hstate : fut.state <;> simp_all [NotReady, Operating]
  obtain ⟨p, hp, hw⟩ := h f fut hf hop
  refine ⟨p, hp, hw.op, ?_⟩
  rcases hw.registered with hnotified | hregistered
  · exact .inl hnotified
  · exact (hw.toNotify hready).imp_right fun hmem => ⟨hmem, hregistered⟩

/-- No pending future misses the completion of its operation. -/
theorem none_missed (h : (machine F X T).Reachable s) : NoneMissed s :=
  noneMissed_of_inv (reachable_inv h)

theorem step_port {b : OverlappedTask.Act X T} (hport : OverlappedFuture.ofPort b = true)
    (hb : OverlappedTask.step s.futures.tasks b = some r) :
    step s (.port b) = some ⟨{ s.futures with tasks := r }, polls s (.port b)⟩ := by
  simp only [step, OverlappedFuture.step, hport, if_true, hb, Option.map_some]

section Leads

variable {p : Poll X T}

/-- The notification that is to come reaches the task of the poll. -/
def Reaches (s : State F X T) (f : F) (p : Poll X T) : Prop :=
  ∃ t, (machine F X T).Leads s t ∧ t.polls f = some { p with notified := true }

theorem Reaches.step (hs : CompletionNotify.step s a = some t) (h : Reaches t f p) :
    Reaches s f p := by
  obtain ⟨u, hleads, hu⟩ := h
  exact ⟨u, hleads.step hs, hu⟩

theorem reaches_of_dequeued (hp : s.polls f = some p)
    (htask : s.futures.tasks.task p.op = some p.task) (hx : p.op ∈ s.futures.tasks.dequeued) :
    Reaches s f p := by
  refine ⟨_, .step (step_port (b := .notify p.op) rfl (if_pos hx)) .refl, ?_⟩
  simp [polls, hp, htask, Poll.wake]

theorem reaches_of_packets (hp : s.polls f = some p)
    (htask : s.futures.tasks.task p.op = some p.task) (hx : p.op ∈ s.futures.tasks.packets) :
    Reaches s f p :=
  .step (step_port (b := .dequeue p.op) rfl (if_pos hx))
    (reaches_of_dequeued hp htask (List.mem_cons_self ..))

theorem reaches_of_completed (hp : s.polls f = some p)
    (htask : s.futures.tasks.task p.op = some p.task) (hx : p.op ∈ s.futures.tasks.completed) :
    Reaches s f p :=
  .step (step_port (b := .queue p.op) rfl (if_pos hx))
    (reaches_of_packets hp htask (List.mem_cons_self ..))

theorem reaches_of_inProgress (hp : s.polls f = some p)
    (htask : s.futures.tasks.task p.op = some p.task) (hx : p.op ∈ s.futures.tasks.inProgress) :
    Reaches s f p :=
  .step (step_port (b := .complete p.op) rfl (if_pos hx))
    (reaches_of_completed hp htask (List.mem_cons_self ..))

/-- The kernel and `poll_iocp` can always bring what is to come. -/
theorem reaches_of_toCome (hp : s.polls f = some p) (h : ToCome s.futures.tasks p) :
    Reaches s f p := by
  obtain ⟨hmem, htask⟩ := h
  simp only [OverlappedTask.State.toNotify, List.mem_append] at hmem
  rcases hmem with ((hx | hx) | hx) | hx
  · exact reaches_of_inProgress hp htask hx
  · exact reaches_of_completed hp htask hx
  · exact reaches_of_packets hp htask hx
  · exact reaches_of_dequeued hp htask hx

/-- After a `NotReady` the task that has polled was notified since, or the kernel and `poll_iocp`
can go on until it is. -/
theorem notReady_reaches (h : (machine F X T).Reachable s) {fut : Future X}
    (hf : s.futures.future f = some fut) (hready : NotReady fut.state) :
    ∃ p, s.polls f = some p ∧ (p.notified = true ∨ Reaches s f p) := by
  obtain ⟨p, hp, -, hnotified⟩ := noneMissed_of_inv (reachable_inv h) f fut hf hready
  exact ⟨p, hp, hnotified.imp_right (reaches_of_toCome hp)⟩

end Leads

end Proofs

def readByTwo : List (OverlappedFuture.Act Unit Unit ℕ) :=
  [.create () .tcpRead, .move () (.pollBegin () 0), .move () (.submit .pending),
    .move () .store, .move () .poll, .move () (.register (some 1)), .move () .pollSocket,
    .port (.complete ()), .port (.queue ()), .move () .store, .port (.dequeue ()),
    .port (.notify ())]

theorem none_missed_readByTwo : ∃ s, (machine Unit Unit ℕ).exec initial readByTwo = some s ∧
    NoneMissed s ∧ s.polls () = some ⟨(), 1, true⟩ :=
  ⟨_, rfl, none_missed (Machine.reachable_of_exec rfl
    (show (machine Unit Unit ℕ).exec initial readByTwo = some _ from rfl)), rfl⟩

end CompleteIo.CompletionNotify
