import CompleteIo.Epoll.SocketFutures

namespace CompleteIo.ConnectOutcome

open SocketFutures (SysResult)

def EAGAIN : ℕ := 11
def EALREADY : ℕ := 114
def EINPROGRESS : ℕ := 115

structure AttemptError where
  errno : ℕ
  ended : errno ≠ EAGAIN ∧ errno ≠ EINPROGRESS
  deriving DecidableEq

/-- The connection attempt of a non-blocking socket, as the kernel keeps it. -/
inductive Attempt
  | idle
  | inProgress
  | ended (outcome : Except AttemptError Unit)
  deriving DecidableEq

/-- `connect`: the attempt that it leaves and what it returns. -/
def Attempt.connect : Attempt → Attempt × Except ℕ Unit
  | .idle => (.inProgress, .error EINPROGRESS)
  | .inProgress => (.inProgress, .error EALREADY)
  | .ended (.ok ()) => (.ended (.ok ()), .ok ())
  | .ended (.error e) => (.ended (.error e), .error e.errno)

def sysResult : Except ℕ Unit → SysResult
  | .ok () => .ok
  | .error errno =>
    if errno = EAGAIN then .wouldBlock else if errno = EINPROGRESS then .inProgress else .error

inductive Resolution
  | stream
  | err (errno : ℕ)
  | registrationFailed
  deriving DecidableEq

def resolution : Except ℕ Unit → Resolution
  | .ok () => .stream
  | .error errno => .err errno

def outcomeResolution : Except AttemptError Unit → Resolution
  | .ok () => .stream
  | .error e => .err e.errno

/-- The state a `Connect` is made in; from `pending` on it is in the socket's future. -/
inductive ConnectState
  | pending
  | error
  | none
  deriving DecidableEq

structure State (ι T : Type*) where
  state : ConnectState
  socket : SocketFutures.State Unit ι T
  attempt : Attempt
  resolved : Option Resolution

inductive Act (ι T : Type*)
  | step (a : SocketFutures.Act Unit ι T)
  | connect
  | pollError
  | finish (outcome : Except AttemptError Unit)

variable {ι T : Type*}

def initial (state : ConnectState) : State ι T := ⟨state, SocketFutures.initial, .idle, none⟩

section Step

variable [DecidableEq ι]

def kind : Unit → SocketFutures.FutureKind := fun _ => .connect

def noteAddFailed (s : State ι T) (socket : SocketFutures.State Unit ι T)
    (a : SocketFutures.Act Unit ι T) : Option Resolution :=
  match a, socket.pc () with
  | .addEnd .., .finished => some .registrationFailed
  | _, _ => s.resolved

def step (s : State ι T) : Act ι T → Option (State ι T)
  | .step (.sysCall ..) => none
  | .step a =>
    match s.state with
    | .pending => (SocketFutures.step kind s.socket a).map fun socket =>
        { s with socket := socket, resolved := noteAddFailed s socket a }
    | _ => none
  | .connect =>
    let (attempt, result) := s.attempt.connect
    (SocketFutures.step kind s.socket (.sysCall () (sysResult result))).map fun socket =>
      { s with
        socket := socket
        attempt := attempt
        resolved :=
          if SocketFutures.connect.suspends (sysResult result) then s.resolved
          else some (resolution result) }
  | .pollError =>
    match s.state with
    | .error => some { s with state := .none, resolved := some .registrationFailed }
    | _ => none
  | .finish outcome =>
    match s.attempt with
    | .inProgress => some { s with attempt := .ended outcome }
    | _ => none

/-- A `Connect` that is polled by any tasks while any threads dispatch the events of its socket. -/
def machine (ι T : Type*) [DecidableEq ι] : Machine (State ι T) (Act ι T) where
  init s := ∃ state, s = initial state
  step := step

/-- The future has resolved with the outcome of the attempt or with a failed registration, if it
has resolved. -/
def Correct (s : State ι T) : Prop :=
  ∀ r, s.resolved = some r → r = .registrationFailed ∨
    ∃ outcome, s.attempt = .ended outcome ∧ r = outcomeResolution outcome

/-- No poll gets past its interest, and calls `connect`, before the attempt is over. -/
def NoEarlyCall (s : State ι T) : Act ι T → Prop
  | .connect => s.attempt ≠ .inProgress
  | _ => True

variable {s t : State ι T} {a : Act ι T}

omit [DecidableEq ι] in
theorem Correct.of_attempt (h : Correct s) (hended : ∀ outcome, s.attempt ≠ .ended outcome)
    (hresolved : t.resolved = s.resolved) : Correct t := by
  intro r hr
  rcases h r (hresolved ▸ hr) with hr | ⟨outcome, houtcome, -⟩
  · exact .inl hr
  · exact absurd houtcome (hended outcome)

/-- No error of an attempt that is over is taken for one that is still in progress. -/
theorem connect_ended (outcome : Except AttemptError Unit) :
    (Attempt.ended outcome).connect.1 = .ended outcome ∧
      SocketFutures.connect.suspends (sysResult (Attempt.ended outcome).connect.2) = false ∧
      resolution (Attempt.ended outcome).connect.2 = outcomeResolution outcome := by
  cases outcome with
  | ok => exact ⟨rfl, rfl, rfl⟩
  | error e =>
    have hresult : sysResult (.error e.errno) = .error := by
      simp only [sysResult, if_neg e.ended.1, if_neg e.ended.2]
    exact ⟨rfl, by rw [Attempt.connect, hresult]; rfl, rfl⟩

/-- Once the attempt is over, the call returns its outcome, on which the poll does not suspend. -/
theorem resolved_of_ended {outcome : Except AttemptError Unit} (hended : s.attempt = .ended outcome)
    (hs : step s .connect = some t) :
    t.attempt = .ended outcome ∧ t.resolved = some (outcomeResolution outcome) := by
  obtain ⟨hattempt, hsuspends, hresolution⟩ := connect_ended outcome
  simp only [step, hended, Option.map_eq_some_iff] at hs
  obtain ⟨socket, -, rfl⟩ := hs
  simp [hattempt, hsuspends, hresolution]

/-- `EALREADY` is taken for the outcome of the attempt. -/
theorem step_connect_correct_iff (h : Correct s) (hs : step s .connect = some t) :
    Correct t ↔ s.attempt ≠ .inProgress := by
  cases hattempt : s.attempt with
  | idle =>
    simp only [step, hattempt, Option.map_eq_some_iff] at hs
    obtain ⟨socket, -, rfl⟩ := hs
    exact iff_of_true (h.of_attempt (by simp [hattempt]) rfl) (by simp)
  | inProgress =>
    simp only [step, hattempt, Option.map_eq_some_iff] at hs
    obtain ⟨socket, -, rfl⟩ := hs
    refine iff_of_false (fun hcorrect => ?_) (by simp)
    rcases hcorrect (.err EALREADY) rfl with hr | ⟨outcome, houtcome, -⟩
    · cases hr
    · cases houtcome
  | ended outcome =>
    obtain ⟨hended, hresolved⟩ := resolved_of_ended hattempt hs
    refine iff_of_true (fun r hr => .inr ⟨outcome, hended, ?_⟩) (by simp)
    exact Option.some.inj (hr.symm.trans hresolved)

theorem exists_socket_of_step {b : SocketFutures.Act Unit ι T} (hs : step s (.step b) = some t) :
    ∃ socket, SocketFutures.step kind s.socket b = some socket ∧
      t = { s with socket := socket, resolved := noteAddFailed s socket b } := by
  cases b <;> simp only [step, reduceCtorEq] at hs
  all_goals
    split at hs
    · obtain ⟨socket, hsocket, rfl⟩ := Option.map_eq_some_iff.mp hs
      exact ⟨socket, hsocket, rfl⟩
    · cases hs

omit [DecidableEq ι] in
/-- Apart from the system call, only a failed registration resolves the future. -/
theorem noteAddFailed_cases (s : State ι T) (socket : SocketFutures.State Unit ι T)
    (b : SocketFutures.Act Unit ι T) : noteAddFailed s socket b = some .registrationFailed ∨
      noteAddFailed s socket b = s.resolved := by
  unfold noteAddFailed
  split
  · exact .inl rfl
  · exact .inr rfl

theorem step_correct_iff (h : Correct s) (hs : step s a = some t) :
    Correct t ↔ NoEarlyCall s a := by
  cases a with
  | connect => exact step_connect_correct_iff h hs
  | step b =>
    obtain ⟨socket, -, rfl⟩ := exists_socket_of_step hs
    refine iff_of_true (fun r hr => ?_) trivial
    rcases noteAddFailed_cases s socket b with hfailed | hsame
    · exact .inl (Option.some.inj (hr.symm.trans hfailed))
    · exact h r (hsame ▸ hr)
  | pollError =>
    simp only [step] at hs
    split at hs
    · cases hs
      exact iff_of_true (fun r hr => .inl (Option.some.inj hr).symm) trivial
    · cases hs
  | finish outcome =>
    simp only [step] at hs
    split at hs
    · rename_i hattempt
      cases hs
      exact iff_of_true (h.of_attempt (by simp [hattempt]) rfl) trivial
    · cases hs

/-- A `Connect` reports nothing but the outcome of the attempt exactly when no poll gets past its
interest too early; and a poll that does so in time resolves with that outcome. -/
theorem connect_correct_iff {state : ConnectState} {as : List (Act ι T)}
    (hrun : (machine ι T).exec (initial state) as = some s) :
    ((machine ι T).Throughout Correct (initial state) as ↔
      (machine ι T).Every NoEarlyCall (initial state) as) ∧
    ∀ outcome t, s.attempt = .ended outcome → step s .connect = some t →
      t.resolved = some (outcomeResolution outcome) :=
  ⟨Machine.throughout_iff_every (fun _ _ _ _ h hs => step_correct_iff h hs) (.init ⟨state, rfl⟩)
    (fun _ hr => by cases hr) hrun, fun _ _ hended hs => (resolved_of_ended hended hs).2⟩

end Step

def startConnect : List (Act ℕ Unit) :=
  [.step (.poll () ()), .connect, .step (.addBegin () 0), .step (.addEnd () true)]

/-- An event of the socket that fires the interest, and a poll that gets past it. -/
def pollFired (word : BitVec 32) : List (Act ℕ Unit) :=
  [.step (.turn (.handleBegin word)), .step (.turn .test), .step (.turn .storeFired),
    .step (.turn .notify), .step (.turn .remove), .step (.turn .test),
    .step (.turn (.rearm true)), .step (.poll () ()), .step (.check ()), .connect]

def connected : List (Act ℕ Unit) :=
  startConnect ++ .finish (.ok ()) :: .step (.turn (.deliver 4#32)) :: pollFired 4#32

theorem connected_correct : ∃ s, (machine ℕ Unit).exec (initial .pending) connected = some s ∧
    s.resolved = some .stream ∧
      (machine ℕ Unit).Throughout Correct (initial .pending) connected := by
  refine ⟨_, rfl, rfl, (connect_correct_iff rfl).1.mpr ?_⟩
  exact .cons trivial rfl <| .cons (fun h => by cases h) rfl <| .cons trivial rfl <|
    .cons trivial rfl <| .cons trivial rfl <| .cons trivial rfl <| .cons trivial rfl <|
    .cons trivial rfl <| .cons trivial rfl <| .cons trivial rfl <| .cons trivial rfl <|
    .cons trivial rfl <| .cons trivial rfl <| .cons trivial rfl <| .cons trivial rfl <|
    .cons (fun h => by cases h) rfl trivial

/-- The `HUP` of the fresh socket is in flight when the interest is added. -/
def hupInFlight : List (Act ℕ Unit) :=
  .step (.turn (.deliver 16#32)) :: startConnect ++ pollFired 16#32

theorem hupInFlight_fails :
    (∃ s, (machine ℕ Unit).exec (initial .pending) hupInFlight = some s ∧
      s.resolved = some (.err EALREADY) ∧ s.attempt = .inProgress) ∧
    ¬ ∀ s, (machine ℕ Unit).Reachable s → Correct s := by
  have hrun : ∃ s, (machine ℕ Unit).exec (initial .pending) hupInFlight = some s ∧
      s.resolved = some (.err EALREADY) ∧ s.attempt = .inProgress := ⟨_, rfl, rfl, rfl⟩
  refine ⟨hrun, fun h => ?_⟩
  obtain ⟨s, hs, hresolved, hattempt⟩ := hrun
  rcases h s (Machine.reachable_of_exec ⟨_, rfl⟩ hs) _ hresolved with hr | ⟨outcome, hended, -⟩
  · cases hr
  · rw [hattempt] at hended
    cases hended

end CompleteIo.ConnectOutcome
