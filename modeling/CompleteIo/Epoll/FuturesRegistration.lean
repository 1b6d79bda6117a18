import CompleteIo.Epoll.HandleEvent
import CompleteIo.Lib.Machine

namespace CompleteIo.FuturesRegistration

structure FutureInterest (T : Type*) where
  task : Option T
  fired : Bool

inductive HandlePc (ι : Type*)
  | test
  | storeFired (x : ι)
  | notify (x : ι)
  | remove (x : ι)
  | rearm

/-- The lock on `interests`, with the local variables of the call that holds it. -/
inductive Lock (ι : Type*)
  | free
  | adding (x : ι) (events oldEventMask : EventMask)
  | handling (events : EventMask) (i : ℕ) (remaining : Option EventMask) (pc : HandlePc ι)
  | poisoned

@[simp] def Lock.notifying {ι : Type*} : Lock ι → Option ι
  | .handling _ _ _ (.notify x) => some x
  | _ => none

@[simp] def Lock.newcomer {ι : Type*} : Lock ι → Option ι
  | .adding x _ _ => some x
  | _ => none

structure State (ι T : Type*) where
  -- The mask of the entry, or `none` once a delivery has disabled it.
  armed : Option EventMask
  -- The `events` words copied out by `epoll_wait` that no `handle_event` has begun on.
  delivered : List (BitVec 32)
  interests : Interests ι
  cell : ι → Option (FutureInterest T)
  lock : Lock ι

inductive Act (ι T : Type*)
  | deliver (word : BitVec 32)
  | addBegin (x : ι) (events : EventMask) (task : T)
  | addEnd (ok : Bool)
  | register (x : ι) (task : T)
  | handleBegin (word : BitVec 32)
  | test
  | storeFired
  | notify
  | remove
  | rearm (ok : Bool)

variable {ι T : Type*}

@[simp] def Act.OfTurn : Act ι T → Prop
  | .addBegin .. | .addEnd _ | .register .. => False
  | _ => True

/-- `FuturesRegistration::new` arms the entry with the empty mask. -/
def initial : State ι T where
  armed := some ∅
  delivered := []
  interests := []
  cell _ := none
  lock := .free

def State.fired (s : State ι T) (x : ι) : Bool := ((s.cell x).map FutureInterest.fired).getD false

def State.task (s : State ι T) (x : ι) : Option T := (s.cell x).bind FutureInterest.task

section Step

variable [DecidableEq ι]

def State.updateCell (s : State ι T) (x : ι) (f : FutureInterest T → FutureInterest T) :
    State ι T :=
  { s with cell := Function.update s.cell x ((s.cell x).map f) }

def State.setPc (s : State ι T) (events : EventMask) (i : ℕ) (remaining : Option EventMask)
    (pc : HandlePc ι) : State ι T :=
  { s with lock := .handling events i remaining pc }

omit [DecidableEq ι] in
@[simp] theorem setPc_lock (s : State ι T) (events : EventMask) (i : ℕ)
    (remaining : Option EventMask) (pc : HandlePc ι) :
    (s.setPc events i remaining pc).lock = .handling events i remaining pc := rfl

def addBegin (s : State ι T) (x : ι) (events : EventMask) (task : T) : State ι T :=
  { s with
    lock := .adding x events (unionMasks s.interests)
    cell := Function.update s.cell x (some ⟨some task, false⟩)
    interests := s.interests ++ [(events, x)] }

/-- The rest of `add_interest`; `ok` is the result of an `epoll_ctl`. -/
def addEnd (s : State ι T) (events oldEventMask : EventMask) (ok : Bool) : State ι T :=
  if oldEventMask.contains events then { s with lock := .free }
  else if ok then { s with armed := some (oldEventMask ∪ events), lock := .free }
  else { s with lock := .free }

def test (s : State ι T) (events : EventMask) (i : ℕ) (remaining : Option EventMask) : State ι T :=
  match s.interests[i]? with
  | none => s.setPc events i remaining .rearm
  | some (mask, x) =>
    if wakes mask events then s.setPc events i remaining (.storeFired x)
    else s.setPc events (i + 1) (some (remaining.getD ∅ ∪ mask)) .test

/-- The end of `handle_event`, where a failing `epoll_ctl` panics with the lock held. -/
def rearm (s : State ι T) (remaining : Option EventMask) (ok : Bool) : State ι T :=
  match remaining with
  | none => { s with lock := .free }
  | some mask =>
    if ok then { s with armed := some mask, lock := .free } else { s with lock := .poisoned }

def step (s : State ι T) : Act ι T → Option (State ι T)
  | .deliver word =>
    match s.armed with
    | none => none
    | some mask =>
      if word ≠ 0 ∧ word &&& (mask ∪ EventMask.always).bits = word then
        some { s with armed := none, delivered := s.delivered ++ [word] }
      else none
  -- A new `Arc` has an identity that was not used before.
  | .addBegin x events task =>
    match s.lock, s.cell x with
    | .free, none => some (addBegin s x events task)
    | _, _ => none
  | .addEnd ok =>
    match s.lock with
    | .adding _ events oldEventMask => some (addEnd s events oldEventMask ok)
    | _ => none
  | .register x task => some (s.updateCell x fun c => { c with task := some task })
  -- `Inner::poll` passes the word through `from_bits_truncate`.
  | .handleBegin word =>
    match s.lock with
    | .free =>
      if word ∈ s.delivered then
        some ({ s with delivered := s.delivered.erase word }.setPc (Flags.fromBitsTruncate word)
          0 none .test)
      else none
    | _ => none
  | .test =>
    match s.lock with
    | .handling events i remaining .test => some (test s events i remaining)
    | _ => none
  | .storeFired =>
    match s.lock with
    | .handling events i remaining (.storeFired x) =>
      some ((s.updateCell x fun c => { c with fired := true }).setPc events i remaining (.notify x))
    | _ => none
  | .notify =>
    match s.lock with
    | .handling events i remaining (.notify x) =>
      some ((s.updateCell x fun c => { c with task := none }).setPc events i remaining (.remove x))
    | _ => none
  | .remove =>
    match s.lock with
    | .handling events i remaining (.remove _) =>
      some ({ s with interests := swapRemove s.interests i }.setPc events i remaining .test)
    | _ => none
  | .rearm ok =>
    match s.lock with
    | .handling _ _ remaining .rearm => some (rearm s remaining ok)
    | _ => none

/-- One registration, used and dispatched by any threads. -/
def machine (ι T : Type*) [DecidableEq ι] : Machine (State ι T) (Act ι T) where
  init s := s = initial
  step := step

end Step

inductive Step [DecidableEq ι] (s : State ι T) : Act ι T → State ι T → Prop
  | deliver {word : BitVec 32} {mask : EventMask} (harmed : s.armed = some mask) (hne : word ≠ 0)
      (hmask : word &&& (mask ∪ EventMask.always).bits = word) :
      Step s (.deliver word) { s with armed := none, delivered := s.delivered ++ [word] }
  | addBegin {x : ι} {events : EventMask} {task : T} (hlock : s.lock = .free)
      (hcell : s.cell x = none) : Step s (.addBegin x events task) (addBegin s x events task)
  | addEnd {x : ι} {events old : EventMask} {ok : Bool} (hlock : s.lock = .adding x events old) :
      Step s (.addEnd ok) (addEnd s events old ok)
  | register {x : ι} {task : T} :
      Step s (.register x task) (s.updateCell x fun c => { c with task := some task })
  | handleBegin {word : BitVec 32} (hlock : s.lock = .free) (hmem : word ∈ s.delivered) :
      Step s (.handleBegin word) ({ s with delivered := s.delivered.erase word }.setPc
        (Flags.fromBitsTruncate word) 0 none .test)
  | test {events : EventMask} {i : ℕ} {remaining : Option EventMask}
      (hlock : s.lock = .handling events i remaining .test) :
      Step s .test (test s events i remaining)
  | storeFired {events : EventMask} {i : ℕ} {remaining : Option EventMask} {x : ι}
      (hlock : s.lock = .handling events i remaining (.storeFired x)) :
      Step s .storeFired ((s.updateCell x fun c => { c with fired := true }).setPc events i
        remaining (.notify x))
  | notify {events : EventMask} {i : ℕ} {remaining : Option EventMask} {x : ι}
      (hlock : s.lock = .handling events i remaining (.notify x)) :
      Step s .notify ((s.updateCell x fun c => { c with task := none }).setPc events i
        remaining (.remove x))
  | remove {events : EventMask} {i : ℕ} {remaining : Option EventMask} {x : ι}
      (hlock : s.lock = .handling events i remaining (.remove x)) :
      Step s .remove ({ s with interests := swapRemove s.interests i }.setPc events i
        remaining .test)
  | rearm {events : EventMask} {i : ℕ} {remaining : Option EventMask} {ok : Bool}
      (hlock : s.lock = .handling events i remaining .rearm) :
      Step s (.rearm ok) (rearm s remaining ok)

theorem step_cases [DecidableEq ι] {s t : State ι T} {a : Act ι T} (hs : step s a = some t) :
    Step s a t := by
  cases a <;> simp only [step] at hs
  case deliver =>
    split at hs
    · cases hs
    · rename_i hmask
      simp only [Option.ite_none_right_eq_some, Option.some.injEq] at hs
      obtain ⟨⟨hne, hword⟩, rfl⟩ := hs
      exact .deliver hmask hne hword
  case addBegin =>
    split at hs
    · rename_i hlock hcell
      exact Option.some.inj hs ▸ .addBegin hlock hcell
    · cases hs
  case register => exact Option.some.inj hs ▸ .register
  case handleBegin =>
    split at hs
    · rename_i hlock
      simp only [Option.ite_none_right_eq_some, Option.some.injEq] at hs
      obtain ⟨hmem, rfl⟩ := hs
      exact .handleBegin hlock hmem
    · cases hs
  all_goals
    split at hs
    · rename_i hlock
      cases hs
      constructor
      exact hlock
    · cases hs

def CtlSucceeds (_ : State ι T) : Act ι T → Prop
  | .addEnd ok | .rearm ok => ok = true
  | _ => True

/-- What the kernel waits for: nothing, once the entry is disabled. -/
def State.armedMask (s : State ι T) : EventMask := s.armed.getD ∅

end CompleteIo.FuturesRegistration
