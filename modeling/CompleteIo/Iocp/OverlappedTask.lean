import CompleteIo.Lib.Machine
import CompleteIo.Lib.RefCount

namespace CompleteIo.OverlappedTask

inductive Submission
  | failed
  | completed
  | pending
  deriving DecidableEq

/-- The `_OverlappedTask`s, and where the references to them are. -/
structure State (X T : Type*) where
  count : X → Option RefCount
  statusPending : X → Bool
  task : X → Option T
  -- The `OverlappedTask` values.
  handles : List X
  submitting : List X
  -- The calls of `for_operation` that do `mem::forget(self)` next.
  forgetting : List X
  inProgress : List X
  -- The operations that have left `STATUS_PENDING`, whose packets the kernel queues next.
  completed : List X
  packets : List X
  -- What `Arc::from_raw` has made of a packet, to be notified next.
  dequeued : List X
  -- The same after the notification, to be dropped next.
  notified : List X
  handedOver : X → ℕ
  consumed : X → ℕ

inductive Act (X T : Type*)
  | new (x : X) (task : T)
  | clone (x : X)
  | register (x : X) (task : T)
  | pollSocket (x : X)
  | forOperation (x : X)
  | submit (x : X) (result : Submission)
  | forget (x : X)
  | complete (x : X)
  | queue (x : X)
  | cancelSocket (x : X) (ok : Bool)
  | drop (x : X)
  | dequeue (x : X)
  | notify (x : X)
  | release (x : X)

variable {X T : Type*}

def initial : State X T where
  count _ := none
  statusPending _ := false
  task _ := none
  handles := []
  submitting := []
  forgetting := []
  inProgress := []
  completed := []
  packets := []
  dequeued := []
  notified := []
  handedOver _ := 0
  consumed _ := 0

/-- What was handed to the port and is not back yet. -/
def State.outstanding (s : State X T) : List X := s.inProgress ++ s.completed ++ s.packets

/-- The operations whose packet is still to be passed to `notify`. -/
def State.toNotify (s : State X T) : List X :=
  s.inProgress ++ s.completed ++ s.packets ++ s.dequeued

def State.refs (s : State X T) : List X :=
  s.handles ++ s.submitting ++ s.inProgress ++ s.completed ++ s.packets ++ s.dequeued ++ s.notified

section Step

variable [DecidableEq X]

def new (s : State X T) (x : X) (task : T) : State X T :=
  { s with
    count := Function.update s.count x (some .new)
    statusPending := Function.update s.statusPending x false
    task := Function.update s.task x (some task)
    handles := x :: s.handles }

def releaseCount (s : State X T) (x : X) : State X T :=
  { s with count := modifyCount s.count x .release }

/-- The closure returns `Ok`: the reference of `self` is the port's from now on. -/
def handOver (s : State X T) (x : X) : State X T :=
  { s with
    submitting := s.submitting.erase x
    forgetting := x :: s.forgetting
    handedOver := Function.update s.handedOver x (s.handedOver x + 1) }

/-- The system call in the closure of `for_operation`; a pending operation can complete before the
call returns. A packet is queued also for an operation that completes at once. -/
def submit (s : State X T) (x : X) : Submission → State X T
  | .failed => releaseCount { s with submitting := s.submitting.erase x } x
  | .completed =>
    { handOver s x with
      statusPending := Function.update s.statusPending x false
      packets := x :: s.packets }
  | .pending =>
    { handOver s x with
      statusPending := Function.update s.statusPending x true
      inProgress := x :: s.inProgress }

def step (s : State X T) : Act X T → Option (State X T)
  | .new x task => if s.count x = none then some (new s x task) else none
  | .clone x =>
    if x ∈ s.handles then
      some { s with count := modifyCount s.count x .retain, handles := x :: s.handles }
    else none
  | .register x task =>
    if x ∈ s.handles then some { s with task := Function.update s.task x (some task) } else none
  | .pollSocket x => if x ∈ s.handles then some s else none
  | .forOperation x =>
    if x ∈ s.handles then
      some { s with handles := s.handles.erase x, submitting := x :: s.submitting }
    else none
  | .submit x result => if x ∈ s.submitting then some (submit s x result) else none
  | .forget x =>
    if x ∈ s.forgetting then some { s with forgetting := s.forgetting.erase x } else none
  | .complete x =>
    if x ∈ s.inProgress then
      some { s with
        statusPending := Function.update s.statusPending x false
        inProgress := s.inProgress.erase x
        completed := x :: s.completed }
    else none
  | .queue x =>
    if x ∈ s.completed then
      some { s with completed := s.completed.erase x, packets := x :: s.packets }
    else none
  -- A failing `CancelIoEx` gives the value back to the caller.
  | .cancelSocket x ok =>
    if x ∈ s.handles then
      some (if ok then releaseCount { s with handles := s.handles.erase x } x else s)
    else none
  | .drop x =>
    if x ∈ s.handles then some (releaseCount { s with handles := s.handles.erase x } x) else none
  | .dequeue x =>
    if x ∈ s.packets then
      some { s with
        packets := s.packets.erase x
        dequeued := x :: s.dequeued
        consumed := Function.update s.consumed x (s.consumed x + 1) }
    else none
  | .notify x =>
    if x ∈ s.dequeued then
      some { s with
        task := Function.update s.task x none
        dequeued := s.dequeued.erase x
        notified := x :: s.notified }
    else none
  | .release x =>
    if x ∈ s.notified then some (releaseCount { s with notified := s.notified.erase x } x) else none

def machine (X T : Type*) [DecidableEq X] : Machine (State X T) (Act X T) where
  init s := s = initial
  step := step

end Step

inductive Step [DecidableEq X] (s : State X T) : Act X T → State X T → Prop
  | new {x : X} {task : T} (hx : s.count x = none) : Step s (.new x task) (new s x task)
  | clone {x : X} (hx : x ∈ s.handles) : Step s (.clone x)
      { s with count := modifyCount s.count x .retain, handles := x :: s.handles }
  | register {x : X} {task : T} (hx : x ∈ s.handles) : Step s (.register x task)
      { s with task := Function.update s.task x (some task) }
  | pollSocket {x : X} (hx : x ∈ s.handles) : Step s (.pollSocket x) s
  | forOperation {x : X} (hx : x ∈ s.handles) : Step s (.forOperation x)
      { s with handles := s.handles.erase x, submitting := x :: s.submitting }
  | failed {x : X} (hx : x ∈ s.submitting) : Step s (.submit x .failed)
      (releaseCount { s with submitting := s.submitting.erase x } x)
  | completed {x : X} (hx : x ∈ s.submitting) : Step s (.submit x .completed)
      { handOver s x with
        statusPending := Function.update s.statusPending x false
        packets := x :: s.packets }
  | pending {x : X} (hx : x ∈ s.submitting) : Step s (.submit x .pending)
      { handOver s x with
        statusPending := Function.update s.statusPending x true
        inProgress := x :: s.inProgress }
  | forget {x : X} (hx : x ∈ s.forgetting) : Step s (.forget x)
      { s with forgetting := s.forgetting.erase x }
  | complete {x : X} (hx : x ∈ s.inProgress) : Step s (.complete x)
      { s with
        statusPending := Function.update s.statusPending x false
        inProgress := s.inProgress.erase x
        completed := x :: s.completed }
  | queue {x : X} (hx : x ∈ s.completed) : Step s (.queue x)
      { s with completed := s.completed.erase x, packets := x :: s.packets }
  | cancelled {x : X} (hx : x ∈ s.handles) : Step s (.cancelSocket x true)
      (releaseCount { s with handles := s.handles.erase x } x)
  | cancelFails {x : X} (hx : x ∈ s.handles) : Step s (.cancelSocket x false) s
  | drop {x : X} (hx : x ∈ s.handles) : Step s (.drop x)
      (releaseCount { s with handles := s.handles.erase x } x)
  | dequeue {x : X} (hx : x ∈ s.packets) : Step s (.dequeue x)
      { s with
        packets := s.packets.erase x
        dequeued := x :: s.dequeued
        consumed := Function.update s.consumed x (s.consumed x + 1) }
  | notify {x : X} (hx : x ∈ s.dequeued) : Step s (.notify x)
      { s with
        task := Function.update s.task x none
        dequeued := s.dequeued.erase x
        notified := x :: s.notified }
  | release {x : X} (hx : x ∈ s.notified) : Step s (.release x)
      (releaseCount { s with notified := s.notified.erase x } x)

theorem step_cases [DecidableEq X] {s t : State X T} {a : Act X T} (hs : step s a = some t) :
    Step s a t := by
  cases a <;> simp only [step, Option.ite_none_right_eq_some, Option.some.injEq] at hs <;>
    obtain ⟨hx, rfl⟩ := hs
  case submit x result =>
    cases result with
    | failed => exact .failed hx
    | completed => exact .completed hx
    | pending => exact .pending hx
  case cancelSocket x ok =>
    cases ok with
    | false => exact .cancelFails hx
    | true => exact .cancelled hx
  all_goals
    constructor
    exact hx

structure Inv [DecidableEq X] (s : State X T) : Prop where
  counted : Counted s.count s.refs
  handedOver : ∀ x, s.handedOver x = s.consumed x + s.outstanding.count x

section Proofs

variable [DecidableEq X] {s t : State X T} {x y : X} {a : Act X T}

theorem initial_inv : Inv (initial : State X T) := ⟨.empty, fun _ => rfl⟩

omit [DecidableEq X] in
theorem mem_refs_of_handles (hx : x ∈ s.handles) : x ∈ s.refs := by simp [State.refs, hx]

theorem count_erase_add {l : List X} (hx : x ∈ l) (y : X) :
    (l.erase x).count y + [x].count y = l.count y := by
  rw [Nat.add_comm, ← List.count_append, List.singleton_append]
  exact ((List.perm_cons_erase hx).count_eq y).symm

/-- References that only change hands. -/
theorem counted_move (h : Inv s) (hc : t.count = s.count)
    (hrefs : ∀ y, t.refs.count y = s.refs.count y) : Counted t.count t.refs := by
  rw [hc]
  exact h.counted.perm (List.perm_iff_count.mpr fun y => (hrefs y).symm)

/-- A reference to `x` that is given up. -/
theorem counted_release (h : Inv s) (hc : t.count = modifyCount s.count x .release)
    (hrefs : ∀ y, t.refs.count y + [x].count y = s.refs.count y) : Counted t.count t.refs := by
  rw [hc]
  refine (h.counted.perm (List.perm_iff_count.mpr fun y => ?_)).release
  rw [← hrefs y, Nat.add_comm, ← List.count_append, List.singleton_append]

theorem counted_step (h : Inv s) (hs : step s a = some t) : Counted t.count t.refs := by
  cases step_cases hs with
  | new hx => exact h.counted.create hx
  | clone hx => exact h.counted.retain (mem_refs_of_handles hx)
  | register | pollSocket | forget | cancelFails => exact h.counted
  | forOperation hx | completed hx | pending hx | complete hx | queue hx | dequeue hx
  | notify hx =>
    refine counted_move h rfl fun y => ?_
    have := count_erase_add hx y
    simp only [State.refs, handOver, List.count_append, List.count_cons, List.count_nil] at this ⊢
    omega
  | failed hx | cancelled hx | drop hx | release hx =>
    refine counted_release h rfl fun y => ?_
    have := count_erase_add hx y
    simp only [State.refs, releaseCount, List.count_append] at this ⊢
    omega

theorem handedOver_step (h : Inv s) (hs : step s a = some t) (y : X) :
    t.handedOver y = t.consumed y + t.outstanding.count y := by
  have hy := h.handedOver y
  cases step_cases hs with
  | new | clone | register | pollSocket | forOperation | failed | forget | cancelled
  | cancelFails | drop | notify | release => exact hy
  | complete hx | queue hx =>
    have := count_erase_add hx y
    simp only [State.outstanding, List.count_append, List.count_cons, List.count_nil] at this hy ⊢
    omega
  | @completed x hx | @pending x hx =>
    simp only [State.outstanding, handOver, List.count_append, List.count_cons] at hy ⊢
    by_cases hyx : y = x
    · subst hyx
      simp only [Function.update_self, beq_self_eq_true, if_true]
      omega
    · simp only [Function.update_of_ne hyx, beq_iff_eq, Ne.symm hyx, if_false]
      omega
  | @dequeue x hx =>
    have := count_erase_add hx y
    simp only [State.outstanding, List.count_append, List.count_cons, List.count_nil] at this hy ⊢
    by_cases hyx : y = x
    · subst hyx
      simp only [Function.update_self, beq_self_eq_true, if_true] at this ⊢
      omega
    · simp only [Function.update_of_ne hyx, beq_iff_eq, Ne.symm hyx, if_false] at this ⊢
      omega

theorem reachable_inv (h : (machine X T).Reachable s) : Inv s :=
  h.invariant (fun _ hs => hs ▸ initial_inv) fun _ _ _ _ hi _ hs =>
    ⟨counted_step hi hs, handedOver_step hi hs⟩

/-- The action neither begins nor ends an operation that is in progress. -/
def Act.Quiet : Act X T → Prop
  | .submit _ .pending | .complete _ => False
  | _ => True

def Act.writes : Act X T → Option X
  | .new x _ | .submit x .completed | .submit x .pending | .complete x => some x
  | _ => none

def Act.registers : Act X T → Option X
  | .new x _ | .register x _ | .notify x => some x
  | _ => none

theorem inProgress_step (ha : a.Quiet) (hs : step s a = some t) :
    t.inProgress = s.inProgress := by
  cases step_cases hs with
  | pending | complete => exact ha.elim
  | _ => rfl

theorem statusPending_step (ha : a.writes ≠ some y) (hs : step s a = some t) :
    t.statusPending y = s.statusPending y := by
  cases step_cases hs with
  | new | completed | pending | complete =>
    exact Function.update_of_ne (fun hyx => ha (congrArg some hyx.symm)) ..
  | _ => rfl

theorem task_step (ha : a.registers ≠ some y) (hs : step s a = some t) :
    t.task y = s.task y := by
  cases step_cases hs with
  | new | register | notify =>
    exact Function.update_of_ne (fun hyx => ha (congrArg some hyx.symm)) ..
  | _ => rfl

/-- The packet of an operation only moves on, until its notification. -/
theorem toNotify_step (ha : a ≠ .notify y) (hs : step s a = some t) (hy : y ∈ s.toNotify) :
    y ∈ t.toNotify := by
  cases step_cases hs with
  | @complete x | @queue x | @dequeue x =>
    by_cases hyx : y = x
    · simp [State.toNotify, hyx]
    · simpa [State.toNotify, hyx] using hy
  | @notify x =>
    have hyx : y ≠ x := fun hyx => ha (congrArg Act.notify hyx.symm)
    simpa [State.toNotify, hyx] using hy
  | completed | pending =>
    simp only [State.toNotify, handOver, List.mem_append, List.mem_cons] at hy ⊢
    tauto
  | _ => exact hy

theorem inProgress_of_statusPending_step (h : ∀ y, s.statusPending y = true → y ∈ s.inProgress)
    (hs : step s a = some t) (hy : t.statusPending y = true) : y ∈ t.inProgress := by
  cases step_cases hs with
  | @new x | @completed x =>
    by_cases hyx : y = x
    · simp [new, hyx] at hy
    · exact h y (by simpa [new, handOver, hyx] using hy)
  | @pending x =>
    by_cases hyx : y = x
    · simp [hyx]
    · have hy := h y (by simpa [handOver, hyx] using hy)
      simp [hy]
  | @complete x =>
    by_cases hyx : y = x
    · simp [hyx] at hy
    · simpa [hyx] using h y (by simpa [hyx] using hy)
  | _ => exact h y hy

/-- `STATUS_PENDING` is only found in operations that the kernel has not completed. -/
theorem inProgress_of_statusPending (h : (machine X T).Reachable s)
    (hy : s.statusPending y = true) : y ∈ s.inProgress :=
  h.invariant (I := fun u => ∀ y, u.statusPending y = true → y ∈ u.inProgress)
    (fun _ hs => hs ▸ fun _ hy => by cases hy)
    (fun _ _ _ _ hi _ hs _ hy => inProgress_of_statusPending_step hi hs hy) y hy

theorem count_step (hs : step s a = some t) (hy : s.count y ≠ none) : t.count y ≠ none := by
  cases step_cases hs with
  | @new x => by_cases hyx : y = x <;> simp [new, hyx, hy]
  | clone | failed | cancelled | drop | release => exact modifyCount_ne_none.mpr hy
  | _ => exact hy

section Exec

variable {as : List (Act X T)}

theorem inProgress_exec (has : ∀ a ∈ as, a.Quiet) (hrun : (machine X T).exec s as = some t) :
    t.inProgress = s.inProgress :=
  Machine.exec_invariant (I := fun u => u.inProgress = s.inProgress) rfl
    (fun _ _ _ h ha hs => (inProgress_step ha hs).trans h) (Machine.every_of_forall fun _ => has)
    hrun

theorem statusPending_exec (has : ∀ a ∈ as, a.writes ≠ some y)
    (hrun : (machine X T).exec s as = some t) : t.statusPending y = s.statusPending y :=
  Machine.exec_invariant (I := fun u => u.statusPending y = s.statusPending y) rfl
    (fun _ _ _ h ha hs => (statusPending_step ha hs).trans h)
    (Machine.every_of_forall fun _ => has) hrun

theorem task_exec (has : ∀ a ∈ as, a.registers ≠ some y)
    (hrun : (machine X T).exec s as = some t) : t.task y = s.task y :=
  Machine.exec_invariant (I := fun u => u.task y = s.task y) rfl
    (fun _ _ _ h ha hs => (task_step ha hs).trans h) (Machine.every_of_forall fun _ => has) hrun

theorem toNotify_exec (has : ∀ a ∈ as, a ≠ .notify y)
    (hrun : (machine X T).exec s as = some t) (hy : y ∈ s.toNotify) : y ∈ t.toNotify :=
  Machine.exec_invariant (I := fun u => y ∈ u.toNotify) hy
    (fun _ _ _ h ha hs => toNotify_step ha hs h) (Machine.every_of_forall fun _ => has) hrun

theorem count_exec (hrun : (machine X T).exec s as = some t) (hy : s.count y ≠ none) :
    t.count y ≠ none :=
  Machine.exec_invariant (q := fun _ _ => True) (I := fun u => u.count y ≠ none) hy
    (fun _ _ _ h _ hs => count_step hs h) (Machine.every_of_forall fun _ _ _ => trivial) hrun

theorem inv_exec (h : Inv s) (hrun : (machine X T).exec s as = some t) : Inv t :=
  Machine.exec_invariant (q := fun _ _ => True) h
    (fun _ _ _ h _ hs => ⟨counted_step h hs, handedOver_step h hs⟩)
    (Machine.every_of_forall fun _ _ _ => trivial) hrun

end Exec

end Proofs

end CompleteIo.OverlappedTask
