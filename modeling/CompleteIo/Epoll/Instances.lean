import CompleteIo.Lib.Machine
import CompleteIo.Lib.OwnershipHeap

namespace CompleteIo.EpollInstances

/-- The shared objects of all instances; the first number is that of the instance. -/
inductive Obj
  | inner (i : ℕ)
  | customEvent (i c : ℕ)
  | registration (i r : ℕ)
  | listener (i l : ℕ)
  -- `_TcpStream` or `_UdpSocket`.
  | socket (i n : ℕ)
  deriving DecidableEq

/-- The values that user code holds; a future holds the socket that it works on, and what a
user's handler has captured is held by the user. -/
inductive Value
  | epoll (i : ℕ)
  | handle (i : ℕ)
  | registration (i r : ℕ)
  | futuresRegistration (i r : ℕ)
  | listener (i l : ℕ)
  | socket (i n : ℕ)
  deriving DecidableEq

structure EventTag where
  ptr : Obj
  epollFd : ℕ
  deriving DecidableEq

def Obj.instance : Obj → ℕ
  | .inner i | .customEvent i _ | .registration i _ | .listener i _ | .socket i _ => i

def Value.target : Value → Obj
  | .epoll i | .handle i => .inner i
  | .registration i r | .futuresRegistration i r => .registration i r
  | .listener i l => .listener i l
  | .socket i n => .socket i n

/-- `FuturesRegistration` is the only one that is not `Clone`. -/
def Value.isClone : Value → Bool
  | .futuresRegistration .. => false
  | _ => true

structure State where
  heap : OwnershipHeap Obj
  fd : ℕ → ℕ
  -- The `event` pointer in the handler of a custom event's registration.
  event : Obj → Option Obj
  values : List Value
  -- Registrations that a `turn` has upgraded and not dropped yet.
  dispatching : List Obj
  -- Every tag there ever was; they are copied freely and own nothing.
  tags : List EventTag

inductive Act
  | new (i fd : ℕ)
  | clone (v : Value)
  | handle (i : ℕ)
  | registerFd (i r : ℕ)
  | newFuturesRegistration (i r : ℕ)
  | fromListener (i l r : ℕ)
  | fromSocket (i n r : ℕ)
  -- `Accept` registers the stream that it has got through the handle in the listener.
  | accept (i l n r : ℕ)
  | newCustomEvent (i c r : ℕ)
  | dropValue (v : Value)
  -- The destructor of a dead object goes on with one of its fields.
  | dropField (x : Obj)
  -- `poll` upgrades the weak reference of an event; `posted` tells if the eventfd of a custom
  -- event's registration is readable.
  | upgrade (i r : ℕ) (posted : Bool)
  -- A user's handler clones the registration that it is called with.
  | cloneDispatched (i r : ℕ)
  | dispatched (x : Obj)

def initial : State where
  heap := .empty
  fd _ := 0
  event _ := none
  values := []
  dispatching := []
  tags := []

def State.roots (s : State) : List Obj := s.values.map Value.target ++ s.dispatching

def State.refs (s : State) : List Obj := s.heap.refs s.roots

/-- The fd numbers of the instances whose `Inner` has not been dropped. -/
def State.openFds (s : State) : List ℕ :=
  s.refs.filterMap fun x => match x with
    | .inner j => some (s.fd j)
    | _ => none

def State.hold (s : State) (heap : OwnershipHeap Obj) (v : Value) : State :=
  { s with heap := heap, values := v :: s.values }

def new (s : State) (i fd : ℕ) : State :=
  { s.hold (s.heap.alloc (.inner i) []) (.epoll i) with fd := Function.update s.fd i fd }

def clone (s : State) (v : Value) : State := s.hold (s.heap.retain v.target) v

def handle (s : State) (i : ℕ) : State := s.hold (s.heap.retain (.inner i)) (.handle i)

def registerFdRaw (h : OwnershipHeap Obj) (i r : ℕ) : OwnershipHeap Obj :=
  (h.retain (.inner i)).alloc (.registration i r) [.inner i]

def registerFd (s : State) (i r : ℕ) : State :=
  s.hold (registerFdRaw s.heap i r) (.registration i r)

def newFuturesRegistration (s : State) (i r : ℕ) : State :=
  s.hold (registerFdRaw s.heap i r) (.futuresRegistration i r)

def fromListener (s : State) (i l r : ℕ) : State :=
  s.hold (((registerFdRaw s.heap i r).retain (.inner i)).alloc (.listener i l)
    [.inner i, .registration i r]) (.listener i l)

def fromSocket (s : State) (i n r : ℕ) : State :=
  s.hold ((registerFdRaw s.heap i r).alloc (.socket i n) [.registration i r]) (.socket i n)

def newCustomEvent (s : State) (i c r : ℕ) : State :=
  { s with
    heap := ((registerFdRaw s.heap i r).alloc (.customEvent i c) [.registration i r]).push
      (.inner i) (.customEvent i c)
    event := Function.update s.event (.registration i r) (some (.customEvent i c))
    tags := ⟨.customEvent i c, s.fd i⟩ :: s.tags }

def dropValue (s : State) (v : Value) : State :=
  { s with heap := s.heap.release v.target, values := s.values.erase v }

def dropField (s : State) (x : Obj) : State := { s with heap := s.heap.dropField x }

/-- The handler of a custom event gets a tag made from the pointer to it and the fd of the
registration's queue. -/
def upgrade (s : State) (i r : ℕ) (posted : Bool) : State :=
  { s with
    heap := s.heap.retain (.registration i r)
    dispatching := .registration i r :: s.dispatching
    tags := match s.event (.registration i r) with
      | some event => if posted then ⟨event, s.fd i⟩ :: s.tags else s.tags
      | none => s.tags }

def dispatched (s : State) (x : Obj) : State :=
  { s with heap := s.heap.release x, dispatching := s.dispatching.erase x }

/-- The allocator and the kernel give out nothing that is in use. -/
def State.fresh (s : State) (x : Obj) : Bool := (s.heap.count x).isNone

def step (s : State) : Act → Option State
  | .new i fd => if s.fresh (.inner i) ∧ fd ∉ s.openFds then some (new s i fd) else none
  | .clone v => if v ∈ s.values ∧ v.isClone then some (clone s v) else none
  | .handle i => if .epoll i ∈ s.values then some (handle s i) else none
  | .registerFd i r =>
    if .handle i ∈ s.values ∧ s.fresh (.registration i r) then some (registerFd s i r) else none
  | .newFuturesRegistration i r =>
    if .handle i ∈ s.values ∧ s.fresh (.registration i r) then
      some (newFuturesRegistration s i r)
    else none
  | .fromListener i l r =>
    if .handle i ∈ s.values ∧ s.fresh (.registration i r) ∧ s.fresh (.listener i l) then
      some (fromListener s i l r)
    else none
  | .fromSocket i n r =>
    if .handle i ∈ s.values ∧ s.fresh (.registration i r) ∧ s.fresh (.socket i n) then
      some (fromSocket s i n r)
    else none
  | .accept i l n r =>
    if (.listener i l ∈ s.values ∧ ⟨.listener i l, .inner i⟩ ∈ s.heap.owned) ∧
        s.fresh (.registration i r) ∧ s.fresh (.socket i n) then
      some (fromSocket s i n r)
    else none
  | .newCustomEvent i c r =>
    if .epoll i ∈ s.values ∧ s.fresh (.registration i r) ∧ s.fresh (.customEvent i c) then
      some (newCustomEvent s i c r)
    else none
  | .dropValue v => if v ∈ s.values then some (dropValue s v) else none
  | .dropField x => if x ∈ s.heap.dropping then some (dropField s x) else none
  | .upgrade i r posted =>
    if .epoll i ∈ s.values ∧ .registration i r ∈ s.refs then some (upgrade s i r posted) else none
  | .cloneDispatched i r =>
    if .registration i r ∈ s.dispatching ∧ s.event (.registration i r) = none then
      some (clone s (.registration i r))
    else none
  | .dispatched x => if x ∈ s.dispatching then some (dispatched s x) else none

def machine : Machine State Act where
  init s := s = initial
  step := step

inductive Step (s : State) : Act → State → Prop
  | new {i fd : ℕ} : s.heap.count (.inner i) = none → fd ∉ s.openFds →
      Step s (.new i fd) (new s i fd)
  | clone {v : Value} : v ∈ s.values → v.isClone = true → Step s (.clone v) (clone s v)
  | handle {i : ℕ} : .epoll i ∈ s.values → Step s (.handle i) (handle s i)
  | registerFd {i r : ℕ} : .handle i ∈ s.values → s.heap.count (.registration i r) = none →
      Step s (.registerFd i r) (registerFd s i r)
  | newFuturesRegistration {i r : ℕ} : .handle i ∈ s.values →
      s.heap.count (.registration i r) = none →
      Step s (.newFuturesRegistration i r) (newFuturesRegistration s i r)
  | fromListener {i l r : ℕ} : .handle i ∈ s.values → s.heap.count (.registration i r) = none →
      s.heap.count (.listener i l) = none → Step s (.fromListener i l r) (fromListener s i l r)
  | fromSocket {i n r : ℕ} : .handle i ∈ s.values → s.heap.count (.registration i r) = none →
      s.heap.count (.socket i n) = none → Step s (.fromSocket i n r) (fromSocket s i n r)
  | accept {i l n r : ℕ} : .listener i l ∈ s.values → ⟨.listener i l, .inner i⟩ ∈ s.heap.owned →
      s.heap.count (.registration i r) = none → s.heap.count (.socket i n) = none →
      Step s (.accept i l n r) (fromSocket s i n r)
  | newCustomEvent {i c r : ℕ} : .epoll i ∈ s.values → s.heap.count (.registration i r) = none →
      s.heap.count (.customEvent i c) = none →
      Step s (.newCustomEvent i c r) (newCustomEvent s i c r)
  | dropValue {v : Value} : v ∈ s.values → Step s (.dropValue v) (dropValue s v)
  | dropField {x : Obj} : x ∈ s.heap.dropping → Step s (.dropField x) (dropField s x)
  | upgrade {i r : ℕ} {posted : Bool} : .epoll i ∈ s.values → .registration i r ∈ s.refs →
      Step s (.upgrade i r posted) (upgrade s i r posted)
  | cloneDispatched {i r : ℕ} : .registration i r ∈ s.dispatching →
      s.event (.registration i r) = none →
      Step s (.cloneDispatched i r) (clone s (.registration i r))
  | dispatched {x : Obj} : x ∈ s.dispatching → Step s (.dispatched x) (dispatched s x)

section Proofs

variable {s t : State} {a : Act} {x : Obj} {v : Value}

theorem mem_roots_of_value (hv : v ∈ s.values) : v.target ∈ s.roots :=
  List.mem_append_left _ (List.mem_map_of_mem hv)

theorem mem_refs_of_value (hv : v ∈ s.values) : v.target ∈ s.refs :=
  List.mem_append_left _ (mem_roots_of_value hv)

@[simp] theorem fresh_iff : s.fresh x = true ↔ s.heap.count x = none := by
  simp [State.fresh]

theorem step_cases (hs : step s a = some t) : Step s a t := by
  cases a <;>
    simp only [step, Option.ite_none_right_eq_some, Option.some.injEq, fresh_iff] at hs <;>
    obtain ⟨hguard, rfl⟩ := hs
  case new => exact .new hguard.1 hguard.2
  case clone => exact .clone hguard.1 hguard.2
  case handle => exact .handle hguard
  case registerFd => exact .registerFd hguard.1 hguard.2
  case newFuturesRegistration => exact .newFuturesRegistration hguard.1 hguard.2
  case fromListener => exact .fromListener hguard.1 hguard.2.1 hguard.2.2
  case fromSocket => exact .fromSocket hguard.1 hguard.2.1 hguard.2.2
  case accept => exact .accept hguard.1.1 hguard.1.2 hguard.2.1 hguard.2.2
  case newCustomEvent => exact .newCustomEvent hguard.1 hguard.2.1 hguard.2.2
  case dropValue => exact .dropValue hguard
  case dropField => exact .dropField hguard
  case upgrade => exact .upgrade hguard.1 hguard.2
  case cloneDispatched => exact .cloneDispatched hguard.1 hguard.2
  case dispatched => exact .dispatched hguard

end Proofs

end CompleteIo.EpollInstances
