import CompleteIo.Epoll.ParkedFutures
import CompleteIo.Lib.Compose
import CompleteIo.ThreadPool.TaskWakeup

namespace CompleteIo.SocketReadiness

open SocketFutures (FutureKind)

variable {F ι W T : Type*}

abbrev State (F ι W T : Type*) := SocketFutures.State F ι T × GlobalTask.State W T

abbrev State.sockets (s : State F ι W T) : SocketFutures.State F ι T := s.1
abbrev State.tasks (s : State F ι W T) : GlobalTask.State W T := s.2

inductive Act (F ι W T : Type*)
  | turn (a : FuturesRegistration.Act ι T)
  -- The handler notifies the task of an interest, on the thread of this worker.
  | notify (w : W)
  | future (w : W) (t : T) (a : SocketFutures.Act F ι T)
  | drop (f : F)
  | work (a : GlobalTask.Act W T)

def notified (sockets : SocketFutures.State F ι T) : Option T :=
  sockets.reg.lock.notifying.bind sockets.reg.task

section Machine

variable [DecidableEq F] [DecidableEq ι] [DecidableEq W] [DecidableEq T]

def pollingTask (sockets : SocketFutures.State F ι T) : SocketFutures.Act F ι T → Option T
  | .poll _ t => some t
  | .check f | .sysCall f _ | .register f | .addBegin f _ | .addEnd f _ =>
    match sockets.pc f with
    | .check t | .register t | .attempt t | .addInterest t | .adding t _ => some t
    | _ => none
  | .turn _ | .drop _ => none

/-- `task::notify` of an `AtomicTask` calls `_GlobalTask::notify` of the task it holds. -/
def link : Link (SocketFutures.State F ι T) (GlobalTask.State W T) (SocketFutures.Act F ι T)
    (GlobalTask.Act W T) (Act F ι W T) where
  left
    | .turn a => some (.turn a)
    | .notify _ => some (.turn .notify)
    | .future _ _ a => some a
    | .drop f => some (.drop f)
    | .work _ => none
  right sockets
    | .notify w => (notified sockets).map (.fetchAdd w)
    | .work a => some a
    | _ => none
  permits sockets tasks
    | .turn .notify => false
    | .future w t a =>
      match tasks.activity w with
      | .doPoll u (.polling _) => u = t ∧ pollingTask sockets a = some t
      | _ => false
    | _ => true

/-- Any futures on one socket, polled by the tasks of a pool on the queue of the socket. -/
def machine (kind : F → FutureKind) : Machine (State F ι W T) (Act F ι W T) :=
  (SocketFutures.machine kind).beside (GlobalTask.machine W T) link

def initial : State F ι W T := (SocketFutures.initial, GlobalTask.initial)

/-- What the futures and the tasks each ask of a schedule, and that `epoll_ctl` succeeds. -/
structure Regular (kind : F → FutureKind) (s : State F ι W T) (c : Act F ι W T) : Prop where
  wakes : ∀ a, (link (W := W)).left c = some a → SocketFutures.WakesArrive kind s.sockets a
  ctl : ∀ a, (link (W := W)).left c = some a → SocketFutures.CtlSucceeds s.sockets a
  few : ∀ b, link.right s.sockets c = some b → GlobalTask.FewCalls s.tasks b

variable {kind : F → FutureKind} {s s' : State F ι W T} {c : Act F ι W T} {f : F} {t : T}

theorem tasks_reached (h : (machine kind).ReachesUnder (Regular kind) s) :
    (GlobalTask.machine W T).ReachesUnder GlobalTask.FewCalls s.tasks :=
  h.snd fun _ _ b hok hb => hok.few b hb

end Machine

def firstPoll : List (Act Unit ℕ Bool Unit) :=
  [.work (.spawnFuture ()), .work (.takeDatum true ()), .work (.pushSpawned true ()),
    .work (.steal true ()), .work (.load true ()), .work (.beginPoll true () 1)]

theorem initial_init {kind : F → FutureKind} [DecidableEq F] [DecidableEq ι] [DecidableEq W]
    [DecidableEq T] : (machine kind).init (initial : State F ι W T) := ⟨rfl, rfl⟩

end CompleteIo.SocketReadiness
