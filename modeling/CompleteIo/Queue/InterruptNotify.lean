import Mathlib.Data.PNat.Basic
import CompleteIo.Lib.Machine

namespace CompleteIo.InterruptNotify

inductive WaitResult
  | interrupted
  | events
  | failed
  deriving DecidableEq

/-- Where the thread of `EventQueue::run` is, through `turn_interruptible` with no timeout. -/
inductive RunPc
  | reset
  | polling
  -- `thread_id.store(pthread_self())` comes next.
  | publish
  | enter
  | blocked
  -- `epoll_pwait` returned and `thread_id.store(0)` comes next.
  | withdraw (r : WaitResult)
  | dispatching
  | finished
  deriving DecidableEq

inductive NotifyPc
  | idle
  -- `notified` was false; `Interrupt::interrupt` loads `thread_id` next.
  | load
  -- `thread_id` was not zero; `pthread_kill` comes next.
  | kill (threadId : ℕ)
  | returned (sent : Option Bool)
  deriving DecidableEq

variable {ι : Type*}

structure State (ι : Type*) where
  pc : RunPc
  notified : Bool
  threadId : ℕ
  pending : Bool
  calls : ι → NotifyPc

inductive Act (ι : Type*)
  | reset
  | pollNotReady
  | pollResolved
  | publish
  | enter
  | signal
  | wake (r : WaitResult)
  | withdraw
  | dispatched
  | swap (i : ι)
  | load (i : ι)
  | kill (i : ι)

def State.setCall [DecidableEq ι] (s : State ι) (i : ι) (pc : NotifyPc) : State ι :=
  { s with calls := Function.update s.calls i pc }

section SetCall

variable [DecidableEq ι] (s : State ι) (i : ι) (pc : NotifyPc)

@[simp] theorem setCall_pc : (s.setCall i pc).pc = s.pc := rfl
@[simp] theorem setCall_pending : (s.setCall i pc).pending = s.pending := rfl
@[simp] theorem setCall_self : (s.setCall i pc).calls i = pc := Function.update_self ..

theorem setCall_other {j : ι} (h : j ≠ i) : (s.setCall i pc).calls j = s.calls j :=
  Function.update_of_ne h ..

end SetCall

def step [DecidableEq ι] (tid : ℕ+) (s : State ι) : Act ι → Option (State ι)
  | .reset =>
    if s.pc = .reset then
      some { s with notified := false, pc := if s.notified then .polling else .publish }
    else none
  | .pollNotReady => if s.pc = .polling then some { s with pc := .publish } else none
  | .pollResolved => if s.pc = .polling then some { s with pc := .finished } else none
  | .publish => if s.pc = .publish then some { s with threadId := tid, pc := .enter } else none
  | .enter => if s.pc = .enter then some { s with pc := .blocked } else none
  -- Only inside `epoll_pwait` does the signal do more than run the handler.
  | .signal =>
    if s.pending then
      some { s with pending := false,
                    pc := if s.pc = .blocked then .withdraw .interrupted else s.pc }
    else none
  | .wake r =>
    if s.pc = .blocked ∧ r ≠ .interrupted then some { s with pc := .withdraw r } else none
  | .withdraw =>
    match s.pc with
    | .withdraw .interrupted => some { s with threadId := 0, pc := .reset }
    | .withdraw .events => some { s with threadId := 0, pc := .dispatching }
    | .withdraw .failed => some { s with threadId := 0, pc := .finished }
    | _ => none
  | .dispatched => if s.pc = .dispatching then some { s with pc := .reset } else none
  -- Only the call that finds the flag down goes on to `interrupt`.
  | .swap i =>
    if s.calls i = .idle then
      if s.notified then some (s.setCall i (.returned none))
      else some ({ s with notified := true }.setCall i .load)
    else none
  | .load i =>
    if s.calls i = .load then
      if s.threadId = 0 then some (s.setCall i (.returned (some false)))
      else some (s.setCall i (.kill s.threadId))
    else none
  -- A signal that is already pending is not queued a second time.
  | .kill i =>
    match s.calls i with
    | .kill id =>
      some ({ s with pending := s.pending || id = tid }.setCall i (.returned (some true)))
    | _ => none

/-- `InterruptNotify::new` starts with the flag set, so that the first turn polls. -/
def initial : State ι where
  pc := .reset
  notified := true
  threadId := 0
  pending := false
  calls _ := .idle

/-- One `EventQueue::run` on Epoll, with any calls of `notify` from other threads. -/
def machine (tid : ℕ+) (ι : Type*) [DecidableEq ι] : Machine (State ι) (Act ι) where
  init s := s = initial
  step := step tid

def NotifyPc.AboutToSend : NotifyPc → Prop
  | .load | .kill _ => True
  | .idle | .returned _ => False

/-- Past the swap of `reset` and not yet in `epoll_pwait`. -/
def RunPc.BeforeWait : RunPc → Prop
  | .polling | .publish | .enter => True
  | _ => False

/-- The loop hangs: it waits for good although it was notified. -/
def Lost (s : State ι) : Prop :=
  s.pc = .blocked ∧ s.notified = true ∧ s.pending = false ∧ ∀ i, ¬ (s.calls i).AboutToSend

/-- Ahead of the wait the step does not use up the last wake-up that a set flag has: a load
that finds no thread id, or a signal that only runs the handler, leaves another one. -/
def LeavesWakeup (s : State ι) : Act ι → Prop
  | .load i => s.pc.BeforeWait → s.notified = true → s.threadId = 0 →
      s.pending = true ∨ ∃ j, j ≠ i ∧ (s.calls j).AboutToSend
  | .signal => s.pc.BeforeWait → s.notified = true → ∃ j, (s.calls j).AboutToSend
  | _ => True

end CompleteIo.InterruptNotify
