import CompleteIo.Epoll.FuturesRegistration

namespace CompleteIo.SocketFutures

inductive SysResult
  | ok
  | wouldBlock
  | inProgress
  | error
  deriving DecidableEq

/-- What the `poll` functions of the socket futures differ in. -/
structure SocketFuture where
  events : EventMask
  -- The results on which it returns `NotReady`.
  suspends : SysResult → Bool

def accept : SocketFuture := ⟨EventMask.READ, fun r => r = .wouldBlock⟩
def connect : SocketFuture := ⟨EventMask.WRITE, fun r => r = .wouldBlock || r = .inProgress⟩
def tcpRead : SocketFuture := ⟨EventMask.READ, fun r => r = .wouldBlock⟩
def tcpWrite : SocketFuture := ⟨EventMask.WRITE, fun r => r = .wouldBlock⟩
def recvFrom : SocketFuture := ⟨EventMask.READ, fun r => r = .wouldBlock⟩
def sendTo : SocketFuture := ⟨EventMask.WRITE, fun r => r = .wouldBlock⟩

inductive FutureKind
  | accept | connect | tcpRead | tcpWrite | recvFrom | sendTo
  deriving DecidableEq

def FutureKind.future : FutureKind → SocketFuture
  | .accept => SocketFutures.accept
  | .connect => SocketFutures.connect
  | .tcpRead => SocketFutures.tcpRead
  | .tcpWrite => SocketFutures.tcpWrite
  | .recvFrom => SocketFutures.recvFrom
  | .sendTo => SocketFutures.sendTo

/-- Where a future is: between polls, or at a step of a poll by a task. -/
inductive FuturePc (ι T : Type*)
  | unpolled
  -- The latest poll, by this task, returned `NotReady`.
  | parked (task : T)
  | check (task : T)
  | register (task : T)
  | attempt (task : T)
  | addInterest (task : T)
  | adding (task : T) (x : ι)
  | finished

structure State (F ι T : Type*) where
  reg : FuturesRegistration.State ι T
  pc : F → FuturePc ι T
  interest : F → Option ι
  -- The tasks that its interest notified since its latest system call.
  woken : F → List T

inductive Act (F ι T : Type*)
  | turn (a : FuturesRegistration.Act ι T)
  | poll (f : F) (task : T)
  | check (f : F)
  | sysCall (f : F) (r : SysResult)
  | register (f : F)
  | addBegin (f : F) (x : ι)
  | addEnd (f : F) (ok : Bool)
  | drop (f : F)

variable {F ι T : Type*}

def initial : State F ι T where
  reg := FuturesRegistration.initial
  pc _ := .unpolled
  interest _ := none
  woken _ := []

section Step

variable [DecidableEq F] [DecidableEq ι]

def State.setPc (s : State F ι T) (f : F) (pc : FuturePc ι T) : State F ι T :=
  { s with pc := Function.update s.pc f pc }

/-- The task that a `notify` wakes is woken for the future that stores the interest. -/
def wake (s : State F ι T) (f : F) : List T :=
  match s.reg.lock.notifying with
  | none => s.woken f
  | some x =>
    if s.interest f = some x then (s.reg.task x).toList ++ s.woken f else s.woken f

def turn (s : State F ι T) (a : FuturesRegistration.Act ι T) : Option (State F ι T) :=
  match a with
  | .addBegin .. | .addEnd _ | .register .. => none
  | .notify => (FuturesRegistration.step s.reg .notify).map fun reg =>
      { s with reg := reg, woken := wake s }
  | a => (FuturesRegistration.step s.reg a).map fun reg => { s with reg := reg }

/-- After the system call: a suspended future registers with the interest it has, or adds one. -/
def afterSysCall (kind : FutureKind) (interest : Option ι) (task : T) (r : SysResult) :
    FuturePc ι T :=
  if kind.future.suspends r then
    match interest with
    | some _ => .register task
    | none => .addInterest task
  else .finished

def step (kind : F → FutureKind) (s : State F ι T) : Act F ι T → Option (State F ι T)
  | .turn a => turn s a
  | .poll f task =>
    match s.pc f with
    | .unpolled | .parked _ =>
      match s.interest f with
      | none => some (s.setPc f (.attempt task))
      | some _ => some (s.setPc f (.check task))
    | _ => none
  | .check f =>
    match s.pc f, (s.interest f).bind s.reg.cell with
    | .check task, some c =>
      some (s.setPc f (if c.fired then .attempt task else .register task))
    | _, _ => none
  | .sysCall f r =>
    match s.pc f with
    | .attempt task =>
      some ({ s with woken := Function.update s.woken f [] }.setPc f
        (afterSysCall (kind f) (s.interest f) task r))
    | _ => none
  | .register f =>
    match s.pc f, s.interest f with
    | .register task, some x =>
      (FuturesRegistration.step s.reg (.register x task)).map fun reg =>
        { s with reg := reg }.setPc f (.parked task)
    | _, _ => none
  | .addBegin f x =>
    match s.pc f with
    | .addInterest task =>
      (FuturesRegistration.step s.reg (.addBegin x (kind f).future.events task)).map fun reg =>
        { s with reg := reg }.setPc f (.adding task x)
    | _ => none
  -- A failed `modify` fails the poll, and the interest stays in the list without a future.
  | .addEnd f ok =>
    match s.pc f, s.reg.lock with
    | .adding task x, .adding _ events old =>
      (FuturesRegistration.step s.reg (.addEnd ok)).map fun reg =>
        if old.contains events || ok then
          { s with reg := reg, interest := Function.update s.interest f (some x) }.setPc f
            (.parked task)
        else { s with reg := reg }.setPc f .finished
    | _, _ => none
  -- Nothing takes the interest of a dropped future out of the list.
  | .drop f =>
    match s.pc f with
    | .unpolled | .parked _ => some (s.setPc f .finished)
    | _ => none

def machine (kind : F → FutureKind) : Machine (State F ι T) (Act F ι T) where
  init s := s = initial
  step := step kind

inductive Step (kind : F → FutureKind) (s : State F ι T) : Act F ι T → State F ι T → Prop
  | turn {a : FuturesRegistration.Act ι T} {reg : FuturesRegistration.State ι T}
      (hturn : a.OfTurn) (hne : a ≠ .notify) (hs : FuturesRegistration.step s.reg a = some reg) :
      Step kind s (.turn a) { s with reg := reg }
  | notify {reg : FuturesRegistration.State ι T}
      (hs : FuturesRegistration.step s.reg .notify = some reg) :
      Step kind s (.turn .notify) { s with reg := reg, woken := wake s }
  | poll {f : F} {task : T} (hi : s.interest f = none) :
      Step kind s (.poll f task) (s.setPc f (.attempt task))
  | pollStored {f : F} {task : T} {x : ι} (hi : s.interest f = some x) :
      Step kind s (.poll f task) (s.setPc f (.check task))
  | check {f : F} {task : T} {x : ι} {c : FuturesRegistration.FutureInterest T}
      (hi : s.interest f = some x) (hc : s.reg.cell x = some c) :
      Step kind s (.check f) (s.setPc f (if c.fired then .attempt task else .register task))
  | sysCall {f : F} {task : T} {r : SysResult} (hpc : s.pc f = .attempt task) :
      Step kind s (.sysCall f r) ({ s with woken := Function.update s.woken f [] }.setPc f
        (afterSysCall (kind f) (s.interest f) task r))
  | register {f : F} {task : T} {x : ι} {reg : FuturesRegistration.State ι T}
      (hpc : s.pc f = .register task) (hi : s.interest f = some x)
      (hs : FuturesRegistration.step s.reg (.register x task) = some reg) :
      Step kind s (.register f) ({ s with reg := reg }.setPc f (.parked task))
  | addBegin {f : F} {task : T} {x : ι} {reg : FuturesRegistration.State ι T}
      (hpc : s.pc f = .addInterest task)
      (hs : FuturesRegistration.step s.reg (.addBegin x (kind f).future.events task) = some reg) :
      Step kind s (.addBegin f x) ({ s with reg := reg }.setPc f (.adding task x))
  | addEnd {f : F} {task : T} {x : ι} {ok : Bool} {reg : FuturesRegistration.State ι T}
      (hpc : s.pc f = .adding task x)
      (hs : FuturesRegistration.step s.reg (.addEnd ok) = some reg) :
      Step kind s (.addEnd f ok)
        ({ s with reg := reg, interest := Function.update s.interest f (some x) }.setPc f
          (.parked task))
  | addFailed {f : F} {task : T} {x : ι} {ok : Bool} {reg : FuturesRegistration.State ι T}
      (hpc : s.pc f = .adding task x)
      (hs : FuturesRegistration.step s.reg (.addEnd ok) = some reg) :
      Step kind s (.addEnd f ok) ({ s with reg := reg }.setPc f .finished)
  | drop {f : F} : Step kind s (.drop f) (s.setPc f .finished)

theorem step_cases {kind : F → FutureKind} {s s' : State F ι T} {a : Act F ι T}
    (hs : step kind s a = some s') : Step kind s a s' := by
  cases a with
  | turn a =>
    cases a <;> simp only [step, SocketFutures.turn, Option.map_eq_some_iff, reduceCtorEq] at hs
    case notify =>
      obtain ⟨reg, hreg, rfl⟩ := hs
      exact .notify hreg
    all_goals
      obtain ⟨reg, hreg, rfl⟩ := hs
      exact .turn trivial (by simp) hreg
  | poll f task =>
    simp only [step] at hs
    repeat' split at hs
    all_goals cases hs
    all_goals first | exact .poll (by assumption) | exact .pollStored (by assumption)
  | check f =>
    simp only [step] at hs
    split at hs
    · rename_i hpc hcell
      cases hs
      obtain ⟨x, hi, hc⟩ := Option.bind_eq_some_iff.mp hcell
      exact .check hi hc
    · cases hs
  | sysCall f r =>
    simp only [step] at hs
    split at hs
    · rename_i hpc
      cases hs
      exact .sysCall hpc
    · cases hs
  | register f =>
    simp only [step] at hs
    split at hs
    · rename_i hpc hi
      obtain ⟨reg, hreg, rfl⟩ := Option.map_eq_some_iff.mp hs
      exact .register hpc hi hreg
    · cases hs
  | addBegin f x =>
    simp only [step] at hs
    split at hs
    · rename_i hpc
      obtain ⟨reg, hreg, rfl⟩ := Option.map_eq_some_iff.mp hs
      exact .addBegin hpc hreg
    · cases hs
  | addEnd f ok =>
    simp only [step] at hs
    split at hs
    · rename_i hpc hlock
      obtain ⟨reg, hreg, rfl⟩ := Option.map_eq_some_iff.mp hs
      split
      · exact .addEnd hpc hreg
      · exact .addFailed hpc hreg
    · cases hs
  | drop f =>
    simp only [step] at hs
    split at hs
    all_goals cases hs
    all_goals exact .drop

end Step

end CompleteIo.SocketFutures
