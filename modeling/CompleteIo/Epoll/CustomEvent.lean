import Mathlib.Logic.Function.Basic
import CompleteIo.Lib.Machine

namespace CompleteIo.CustomEvent

/-- How far one call of `Inner::poll` is with the event of this registration. -/
inductive TurnPc (D : Type*)
  | idle
  -- `epoll_wait` copied the event into its buffer.
  | copied
  | reading
  | draining
  | popped (d : D)
  | calling (d : D)
  | rearming
  -- `EPOLL_CTL_MOD` has taken effect, and `handle_event` is about to return.
  | returning
  deriving DecidableEq

variable {P Θ D : Type*}

/-- One `_CustomEvent` with its eventfd, its epoll entry and the threads that use them. -/
structure State (P Θ D : Type*) where
  queue : List D
  counter : ℕ
  armed : Bool
  -- The threads of `post_custom_event` between the push and the write, with their data.
  posting : List (P × D)
  -- The data of the posts whose write failed, so that they returned `Err`.
  refused : List D
  turns : Θ → TurnPc D
  pushed : List D
  delivered : List D

inductive Act (P Θ D : Type*)
  | push (p : P) (d : D)
  | write (p : P) (d : D) (ok : Bool)
  | deliver (i : Θ)
  | dispatch (i : Θ)
  | read (i : Θ)
  | tryPop (i : Θ)
  | call (i : Θ)
  | handlerReturn (i : Θ)
  | modify (i : Θ)
  | returned (i : Θ)

section Step
variable [DecidableEq P] [DecidableEq Θ] [DecidableEq D]

def State.setTurn (s : State P Θ D) (i : Θ) (pc : TurnPc D) : State P Θ D :=
  { s with turns := Function.update s.turns i pc }

def step (s : State P Θ D) : Act P Θ D → Option (State P Θ D)
  | .push p d =>
    if p ∉ s.posting.map Prod.fst then
      some { s with
        queue := s.queue ++ [d]
        pushed := s.pushed ++ [d]
        posting := (p, d) :: s.posting }
    else none
  | .write p d ok =>
    if (p, d) ∈ s.posting then
      if ok then some { s with counter := s.counter + 1, posting := s.posting.erase (p, d) }
      else some { s with refused := d :: s.refused, posting := s.posting.erase (p, d) }
    else none
  -- A level-triggered one-shot entry: reported while the count is positive, then disabled.
  | .deliver i =>
    match s.turns i with
    | .idle =>
      if s.armed ∧ 0 < s.counter then some ({ s with armed := false }.setTurn i .copied) else none
    | _ => none
  | .dispatch i =>
    match s.turns i with
    | .copied => some (s.setTurn i .reading)
    | _ => none
  -- `EFD_SEMAPHORE`: a read takes one; at zero it is `WouldBlock` and `count` stays 0.
  | .read i =>
    match s.turns i with
    | .reading =>
      if 0 < s.counter then some ({ s with counter := s.counter - 1 }.setTurn i .draining)
      else some (s.setTurn i .rearming)
    | _ => none
  -- `SegQueue` is first in, first out, as `crossbeam` documents it.
  | .tryPop i =>
    match s.turns i, s.queue with
    | .draining, d :: rest => some ({ s with queue := rest }.setTurn i (.popped d))
    | .draining, [] => some (s.setTurn i .rearming)
    | _, _ => none
  | .call i =>
    match s.turns i with
    | .popped d => some ({ s with delivered := s.delivered ++ [d] }.setTurn i (.calling d))
    | _ => none
  | .handlerReturn i =>
    match s.turns i with
    | .calling _ => some (s.setTurn i .draining)
    | _ => none
  | .modify i =>
    match s.turns i with
    | .rearming => some ({ s with armed := true }.setTurn i .returning)
    | _ => none
  | .returned i =>
    match s.turns i with
    | .returning => some (s.setTurn i .idle)
    | _ => none

def initial : State P Θ D where
  queue := []
  counter := 0
  armed := true
  posting := []
  refused := []
  turns _ := .idle
  pushed := []
  delivered := []

/-- The custom event from `new_custom_event` on: any threads post, any threads turn. -/
def machine (P Θ D : Type*) [DecidableEq P] [DecidableEq Θ] [DecidableEq D] :
    Machine (State P Θ D) (Act P Θ D) where
  init s := s = initial
  step := step

inductive Step (s : State P Θ D) : Act P Θ D → State P Θ D → Prop
  | push {p : P} {d : D} : Step s (.push p d)
      { s with
        queue := s.queue ++ [d]
        pushed := s.pushed ++ [d]
        posting := (p, d) :: s.posting }
  | write {p : P} {d : D} : (p, d) ∈ s.posting → Step s (.write p d true)
      { s with counter := s.counter + 1, posting := s.posting.erase (p, d) }
  | writeFailed {p : P} {d : D} : (p, d) ∈ s.posting → Step s (.write p d false)
      { s with refused := d :: s.refused, posting := s.posting.erase (p, d) }
  | deliver {i : Θ} : s.turns i = .idle → s.armed = true → 0 < s.counter →
      Step s (.deliver i) ({ s with armed := false }.setTurn i .copied)
  | dispatch {i : Θ} : s.turns i = .copied → Step s (.dispatch i) (s.setTurn i .reading)
  | read {i : Θ} : s.turns i = .reading → 0 < s.counter →
      Step s (.read i) ({ s with counter := s.counter - 1 }.setTurn i .draining)
  | readNone {i : Θ} : s.turns i = .reading → s.counter = 0 →
      Step s (.read i) (s.setTurn i .rearming)
  | tryPop {i : Θ} {d : D} {rest : List D} : s.turns i = .draining → s.queue = d :: rest →
      Step s (.tryPop i) ({ s with queue := rest }.setTurn i (.popped d))
  | tryPopNone {i : Θ} : s.turns i = .draining → s.queue = [] →
      Step s (.tryPop i) (s.setTurn i .rearming)
  | call {i : Θ} {d : D} : s.turns i = .popped d →
      Step s (.call i) ({ s with delivered := s.delivered ++ [d] }.setTurn i (.calling d))
  | handlerReturn {i : Θ} {d : D} : s.turns i = .calling d →
      Step s (.handlerReturn i) (s.setTurn i .draining)
  | modify {i : Θ} : s.turns i = .rearming →
      Step s (.modify i) ({ s with armed := true }.setTurn i .returning)
  | returned {i : Θ} : s.turns i = .returning → Step s (.returned i) (s.setTurn i .idle)

theorem step_cases {s t : State P Θ D} {a : Act P Θ D} (hs : step s a = some t) : Step s a t := by
  cases a <;> simp only [step] at hs
  case push p d =>
    obtain ⟨-, hs⟩ := Option.ite_none_right_eq_some.mp hs
    exact Option.some.inj hs ▸ .push
  case write p d ok =>
    obtain ⟨hp, hs⟩ := Option.ite_none_right_eq_some.mp hs
    cases ok with
    | true => exact Option.some.inj hs ▸ .write hp
    | false => exact Option.some.inj hs ▸ .writeFailed hp
  case deliver i =>
    split at hs
    · next hi =>
      obtain ⟨⟨harmed, hpos⟩, hs⟩ := Option.ite_none_right_eq_some.mp hs
      exact Option.some.inj hs ▸ .deliver hi harmed hpos
    · cases hs
  case read i =>
    split at hs
    · next hi =>
      by_cases hpos : 0 < s.counter
      · exact Option.some.inj ((if_pos hpos).symm.trans hs) ▸ .read hi hpos
      · have hzero := Nat.eq_zero_of_not_pos hpos
        exact Option.some.inj ((if_neg hpos).symm.trans hs) ▸ .readNone hi hzero
    · cases hs
  case tryPop i =>
    split at hs
    · next hi hq => exact Option.some.inj hs ▸ .tryPop hi hq
    · next hi hq => exact Option.some.inj hs ▸ .tryPopNone hi hq
    · cases hs
  all_goals
    split at hs
    · next hi => exact Option.some.inj hs ▸ by constructor; exact hi
    · cases hs

def WritesSucceed (_ : State P Θ D) : Act P Θ D → Prop
  | .write _ _ ok => ok = true
  | _ => True

end Step

@[simp] def TurnPc.InHandleEvent : TurnPc D → Prop
  | .idle | .copied => False
  | .reading | .draining | .popped _ | .calling _ | .rearming | .returning => True

/-- The event that the one-shot entry has reported, up to the `EPOLL_CTL_MOD`. -/
@[simp] def TurnPc.HasEvent : TurnPc D → Prop
  | .idle | .returning => False
  | .copied | .reading | .draining | .popped _ | .calling _ | .rearming => True

/-- The invocation has read a non-zero count and has not yet found the queue empty. -/
@[simp] def TurnPc.Draining : TurnPc D → Prop
  | .draining | .popped _ | .calling _ => True
  | .idle | .copied | .reading | .rearming | .returning => False

@[simp] def TurnPc.inHand : TurnPc D → List D
  | .popped d => [d]
  | _ => []

end CompleteIo.CustomEvent
