import CompleteIo.Iocp.OverlappedTask

namespace CompleteIo.OverlappedFuture

open OverlappedTask (Submission)

inductive Block
  | data
  | address
  deriving DecidableEq

/-- Who has a block: the future, nobody after a `mem::forget`, or whoever got it back or freed
it. -/
inductive Owner
  | future
  | leaked
  | released
  deriving DecidableEq

inductive Kind
  | accept
  | connect
  | tcpWrite
  | tcpRead
  | recvFrom
  | sendTo
  deriving DecidableEq

/-- The blocks that the `Pending` state keeps for the kernel. -/
def Kind.blocks : Kind → List Block
  | .accept => [.address]
  | .connect => []
  | .tcpWrite => [.data]
  | .tcpRead => [.data]
  | .recvFrom => [.data, .address]
  | .sendTo => [.data]

/-- The blocks that `drop` leaks if the cancellation fails; two of the futures have no `Drop`. -/
def Kind.leaks : Kind → Option (List Block)
  | .accept => none
  | .connect => none
  | .tcpWrite => some [.data]
  | .tcpRead => some [.data]
  | .recvFrom => some [.data, .address]
  | .sendTo => some [.data]

/-- The state of a future, or the place in a poll that has taken it out. -/
inductive FutureState (X : Type*)
  | initial
  -- Inside `for_operation`.
  | submitting (x : X)
  | submitted (x : X)
  | pending (x : X)
  | polling (x : X)
  | registered (x : X)
  | storing (x : X)
  -- The state `None`; `x` is what the future was submitted with.
  | none (x : Option X)

@[simp] def FutureState.task {X : Type*} : FutureState X → Option X
  | .initial => .none
  | .submitting x | .submitted x | .pending x | .polling x | .registered x | .storing x => some x
  | .none x => x

@[simp] def FutureState.Live {X : Type*} : FutureState X → Prop
  | .none _ => False
  | _ => True

structure Future (X : Type*) where
  kind : Kind
  state : FutureState X
  owner : Block → Owner

structure State (F X T : Type*) where
  tasks : OverlappedTask.State X T
  future : F → Option (Future X)

inductive Move (X T : Type*)
  | pollBegin (x : X) (task : T)
  | pollFails
  | submit (result : Submission)
  | store
  | poll
  -- `none` is a poll outside of any task, where `register` panics.
  | register (task : Option T)
  | pollSocket
  | drop (cancelled : Bool)

inductive Act (F X T : Type*)
  | create (f : F) (kind : Kind)
  | move (f : F) (m : Move X T)
  | port (a : OverlappedTask.Act X T)

variable {F X T : Type*}

def initial : State F X T where
  tasks := OverlappedTask.initial
  future _ := none

def Future.released (fut : Future X) (x : Option X) : Future X :=
  { fut with state := .none x, owner := fun _ => .released }

/-- A failed cancellation leaks the blocks for safety. -/
def Future.leaked (fut : Future X) (x : X) (leaks : List Block) : Future X :=
  { fut with
    state := .none (some x)
    owner := fun b => if b ∈ leaks then .leaked else .released }

def move (status : X → Bool) (fut : Future X) :
    Move X T → Option (Future X × List (OverlappedTask.Act X T))
  | .pollBegin x task =>
    match fut.state with
    | .initial => some ({ fut with state := .submitting x },
        [.new x task, .clone x, .forOperation x])
    | _ => none
  | .pollFails =>
    match fut.state with
    | .initial => some (fut.released none, [])
    | _ => none
  | .submit result =>
    match fut.state, result with
    | .submitting x, .failed => some (fut.released x, [.submit x .failed, .drop x])
    | .submitting x, .completed =>
      some (fut.released x, [.submit x .completed, .forget x, .drop x])
    | .submitting x, .pending => some ({ fut with state := .submitted x }, [.submit x .pending])
    | _, _ => none
  | .store =>
    match fut.state with
    | .submitted x => some ({ fut with state := .pending x }, [.forget x])
    | .storing x => some ({ fut with state := .pending x }, [])
    | _ => none
  | .poll =>
    match fut.state with
    | .pending x => some ({ fut with state := .polling x }, [])
    | _ => none
  | .register task =>
    match fut.state, task with
    | .polling x, some task => some ({ fut with state := .registered x }, [.register x task])
    | .polling x, none => some (fut.released x, [.drop x])
    | _, _ => none
  | .pollSocket =>
    match fut.state with
    | .registered x =>
      if status x then some ({ fut with state := .storing x }, [.pollSocket x])
      else some (fut.released x, [.pollSocket x, .drop x])
    | _ => none
  | .drop cancelled =>
    match fut.state with
    | .initial => some (fut.released none, [])
    | .pending x =>
      match fut.kind.leaks with
      | none => some (fut.released x, [.drop x])
      | some leaks =>
        if cancelled then some (fut.released x, [.cancelSocket x true])
        else some (fut.leaked x leaks, [.cancelSocket x false, .drop x])
    | _ => none

def ofPort : OverlappedTask.Act X T → Bool
  | .complete _ | .queue _ | .dequeue _ | .notify _ | .release _ => true
  | _ => false

section Step

variable [DecidableEq F] [DecidableEq X]

def State.setFuture (s : State F X T) (f : F) (fut : Future X) (tasks : OverlappedTask.State X T) :
    State F X T where
  tasks := tasks
  future := Function.update s.future f (some fut)

def step (s : State F X T) : Act F X T → Option (State F X T)
  | .create f kind =>
    if (s.future f).isNone then
      some (s.setFuture f ⟨kind, .initial, fun _ => .future⟩ s.tasks)
    else none
  | .move f m =>
    (s.future f).bind fun fut => (move s.tasks.statusPending fut m).bind fun p =>
      ((OverlappedTask.machine X T).exec s.tasks p.2).map (s.setFuture f p.1)
  | .port a =>
    if ofPort a then (OverlappedTask.step s.tasks a).map fun r => { s with tasks := r } else none

def machine (F X T : Type*) [DecidableEq F] [DecidableEq X] :
    Machine (State F X T) (Act F X T) where
  init s := s = initial
  step := step

end Step

inductive Moves (status : X → Bool) (k : Kind) (o : Block → Owner) :
    FutureState X → Move X T → Future X → List (OverlappedTask.Act X T) → Prop
  | pollBegin {x : X} {task : T} : Moves status k o .initial (.pollBegin x task)
      ⟨k, .submitting x, o⟩ [.new x task, .clone x, .forOperation x]
  | pollFails : Moves status k o .initial .pollFails (.released ⟨k, .initial, o⟩ none) []
  | failed {x : X} : Moves status k o (.submitting x) (.submit .failed)
      (.released ⟨k, .submitting x, o⟩ x) [.submit x .failed, .drop x]
  | completed {x : X} : Moves status k o (.submitting x) (.submit .completed)
      (.released ⟨k, .submitting x, o⟩ x) [.submit x .completed, .forget x, .drop x]
  | submitted {x : X} : Moves status k o (.submitting x) (.submit .pending)
      ⟨k, .submitted x, o⟩ [.submit x .pending]
  | storeFirst {x : X} : Moves status k o (.submitted x) .store ⟨k, .pending x, o⟩ [.forget x]
  | store {x : X} : Moves status k o (.storing x) .store ⟨k, .pending x, o⟩ []
  | poll {x : X} : Moves status k o (.pending x) .poll ⟨k, .polling x, o⟩ []
  | register {x : X} {task : T} : Moves status k o (.polling x) (.register (some task))
      ⟨k, .registered x, o⟩ [.register x task]
  | registerPanics {x : X} : Moves status k o (.polling x) (.register none)
      (.released ⟨k, .polling x, o⟩ x) [.drop x]
  | notReady {x : X} (hstatus : status x = true) : Moves status k o (.registered x) .pollSocket
      ⟨k, .storing x, o⟩ [.pollSocket x]
  | ready {x : X} (hstatus : status x = false) : Moves status k o (.registered x) .pollSocket
      (.released ⟨k, .registered x, o⟩ x) [.pollSocket x, .drop x]
  | dropInitial {cancelled : Bool} : Moves status k o .initial (.drop cancelled)
      (.released ⟨k, .initial, o⟩ none) []
  | dropFields {x : X} {cancelled : Bool} (hleaks : k.leaks = none) :
      Moves status k o (.pending x) (.drop cancelled) (.released ⟨k, .pending x, o⟩ x) [.drop x]
  | dropCancelled {x : X} {leaks : List Block} (hleaks : k.leaks = some leaks) :
      Moves status k o (.pending x) (.drop true) (.released ⟨k, .pending x, o⟩ x)
        [.cancelSocket x true]
  | dropLeaking {x : X} {leaks : List Block} (hleaks : k.leaks = some leaks) :
      Moves status k o (.pending x) (.drop false) (.leaked ⟨k, .pending x, o⟩ x leaks)
        [.cancelSocket x false, .drop x]

theorem move_cases {status : X → Bool} {k : Kind} {o : Block → Owner} {state : FutureState X}
    {m : Move X T} {fut : Future X} {as : List (OverlappedTask.Act X T)}
    (h : move status ⟨k, state, o⟩ m = some (fut, as)) : Moves status k o state m fut as := by
  cases m <;> simp only [move] at h
  case pollSocket =>
    split at h
    · split at h <;> rename_i hstatus <;> cases h
      · exact .notReady hstatus
      · exact .ready (by simpa using hstatus)
    · cases h
  case drop cancelled =>
    split at h
    · cases h
      exact .dropInitial
    · split at h <;> rename_i hleaks
      · cases h
        exact .dropFields hleaks
      · cases cancelled <;> cases h
        · exact .dropLeaking hleaks
        · exact .dropCancelled hleaks
    · cases h
  all_goals
    split at h
    all_goals first | (cases h; constructor) | cases h

inductive Step [DecidableEq F] [DecidableEq X] (s : State F X T) : Act F X T → State F X T → Prop
  | create {f : F} {kind : Kind} (hf : s.future f = none) :
      Step s (.create f kind) (s.setFuture f ⟨kind, .initial, fun _ => .future⟩ s.tasks)
  | move {f : F} {fut fut' : Future X} {m : Move X T} {as : List (OverlappedTask.Act X T)}
      {r : OverlappedTask.State X T} (hf : s.future f = some fut)
      (hmove : Moves s.tasks.statusPending fut.kind fut.owner fut.state m fut' as)
      (hexec : (OverlappedTask.machine X T).exec s.tasks as = some r) :
      Step s (.move f m) (s.setFuture f fut' r)
  | port {b : OverlappedTask.Act X T} {r : OverlappedTask.State X T} (hport : ofPort b = true)
      (hstep : OverlappedTask.step s.tasks b = some r) : Step s (.port b) { s with tasks := r }

theorem step_cases [DecidableEq F] [DecidableEq X] {s t : State F X T} {a : Act F X T}
    (hs : step s a = some t) : Step s a t := by
  cases a with
  | create f kind =>
    simp only [step, Option.isNone_iff_eq_none, Option.ite_none_right_eq_some,
      Option.some.injEq] at hs
    obtain ⟨hf, rfl⟩ := hs
    exact .create hf
  | move f m =>
    obtain ⟨fut, hf, hs⟩ := Option.bind_eq_some_iff.mp hs
    obtain ⟨⟨fut', as⟩, hmove, hs⟩ := Option.bind_eq_some_iff.mp hs
    obtain ⟨r, hexec, rfl⟩ := Option.map_eq_some_iff.mp hs
    exact .move hf (move_cases hmove) hexec
  | port b =>
    simp only [step, Option.ite_none_right_eq_some] at hs
    obtain ⟨hport, hs⟩ := hs
    obtain ⟨r, hstep, rfl⟩ := Option.map_eq_some_iff.mp hs
    exact .port hport hstep

/-- What the futures do with their tasks is a run of the tasks. -/
theorem reachable_tasks [DecidableEq F] [DecidableEq X] {s : State F X T}
    (h : (machine F X T).Reachable s) : (OverlappedTask.machine X T).Reachable s.tasks := by
  induction h with
  | init h => exact h ▸ .init rfl
  | step _ _ hs hr =>
    cases step_cases hs with
    | create => exact hr
    | move hf hmove hexec => exact hr.exec hexec
    | port hport hstep => exact .step hr trivial hstep

end CompleteIo.OverlappedFuture
