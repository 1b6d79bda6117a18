import CompleteIo.Lib.Machine
import CompleteIo.Lib.OwnershipHeap

namespace CompleteIo.PoolOwnership

/-- The shared objects of a pool whose event queue is an `Epoll`. -/
inductive Obj
  | pool
  | eventQueue
  | inner
  -- The `_CustomEvent` with the handler for remote spawns, which has captured the pool.
  | customEvent
  | registration
  | worker (w : ℕ)
  deriving DecidableEq

inductive Value
  | epoll
  -- A `Handle` of the `Epoll`, or what has cloned its `Arc`.
  | queueHandle
  | threadPool
  | handle
  deriving DecidableEq

inductive Holder
  | value (v : Value)
  -- `with_concurrency`, with the worker that `run_worker` has returned.
  | building (worker : Option ℕ)
  | thread (w : ℕ)
  -- A thread whose worker is not in `workers` any more.
  | leaving (w : ℕ)
  -- The `queue` of a registration that was forgotten.
  | forgotten
  deriving DecidableEq

def Value.refs : Value → List Obj
  | .epoll | .queueHandle => [.inner]
  | .threadPool => [.pool]
  | .handle => [.pool, .inner]

def Holder.refs : Holder → List Obj
  | .value v => v.refs
  | .forgotten => [.inner]
  | .building none => [.pool]
  | .building (some w) => [.worker w, .pool]
  | .thread w | .leaving w => [.worker w, .eventQueue]

structure State where
  heap : OwnershipHeap Obj
  holders : List Holder
  registered : Option Bool
  -- The workers whose thread has ended, or could not be created.
  ended : List ℕ

inductive Act
  | new
  | newCustomEvent
  -- `leaks` tells if it was `epoll_ctl` that failed, after which the registration is forgotten.
  | newCustomEventFails (leaks : Bool)
  | runWorker (w : ℕ)
  -- The thread cannot be created, and the panic takes `with_concurrency` down.
  | runWorkerFails (w : ℕ)
  | pushWorker (w : ℕ)
  | built
  | handle
  | queueHandle
  | dropValue (v : Value)
  | removeWorker (w : ℕ)
  | endThread (w : ℕ)
  | dropField (x : Obj)
  deriving DecidableEq

/-- Before `with_concurrency` is called there is the `Epoll` that it is given. -/
def initial : State where
  heap := OwnershipHeap.empty.alloc .inner []
  holders := [.value .epoll]
  registered := none
  ended := []

def State.roots (s : State) : List Obj := s.holders.flatMap Holder.refs

def State.refs (s : State) : List Obj := s.heap.refs s.roots

def State.fresh (s : State) (x : Obj) : Bool := (s.heap.count x).isNone

def State.pass (s : State) (heap : OwnershipHeap Obj) (x : Holder) (ys : List Holder) : State :=
  { s with heap := heap, holders := ys ++ s.holders.erase x }

def new (s : State) : State :=
  s.pass ((s.heap.alloc .eventQueue [.inner]).alloc .pool [.eventQueue]) (.value .epoll)
    [.building none]

/-- The handler clones the pool, and the registration clones the `Inner`. -/
def registerHeap (h : OwnershipHeap Obj) : OwnershipHeap Obj :=
  (h.retainAll [.pool, .inner]).alloc .registration [.inner]

/-- The custom event takes both over, and is pushed to `custom_events`. -/
def newCustomEventHeap (h : OwnershipHeap Obj) : OwnershipHeap Obj :=
  ((registerHeap h).alloc .customEvent [.pool, .registration]).push .inner .customEvent

def newCustomEvent (s : State) : State :=
  { s with heap := newCustomEventHeap s.heap, registered := some true }

/-- The handler is dropped, and the pool as well. -/
def newCustomEventFails (s : State) (leaks : Bool) : State :=
  { s.pass ((s.heap.retainAll (.pool :: if leaks then [.inner] else [])).releaseAll [.pool, .pool])
      (.building none) (if leaks then [.forgotten] else []) with
    registered := some false }

/-- The new worker clones the pool, its thread the worker and the event queue. -/
def runWorkerHeap (h : OwnershipHeap Obj) (w : ℕ) : OwnershipHeap Obj :=
  (((h.retainAll [.pool, .eventQueue]).alloc (.worker w) [.pool]).retain (.worker w))

def runWorker (s : State) (w : ℕ) : State :=
  s.pass (runWorkerHeap s.heap w) (.building none) [.building (some w), .thread w]

def runWorkerFails (s : State) (w : ℕ) : State :=
  { s.pass ((runWorkerHeap s.heap w).releaseAll [.worker w, .eventQueue, .worker w, .pool])
      (.building none) [] with
    ended := w :: s.ended }

def pushWorker (s : State) (w : ℕ) : State :=
  s.pass (s.heap.push .pool (.worker w)) (.building (some w)) [.building none]

def built (s : State) : State := s.pass s.heap (.building none) [.value .threadPool]

def acquire (s : State) (v : Value) : State :=
  { s with heap := s.heap.retainAll v.refs, holders := .value v :: s.holders }

def dropValue (s : State) (v : Value) : State := s.pass (s.heap.releaseAll v.refs) (.value v) []

def removeWorker (s : State) (w : ℕ) : State :=
  s.pass ((s.heap.pull .pool (.worker w)).release (.worker w)) (.thread w) [.leaving w]

/-- The `WorkerSelf` is dropped, and then what the thread's closure has captured. -/
def endThread (s : State) (w : ℕ) : State :=
  { s.pass (s.heap.releaseAll [.worker w, .eventQueue]) (.leaving w) [] with
    ended := w :: s.ended }

def dropField (s : State) (x : Obj) : State := { s with heap := s.heap.dropField x }

def step (s : State) : Act → Option State
  | .new =>
    if .value .epoll ∈ s.holders ∧ s.fresh .eventQueue ∧ s.fresh .pool then some (new s) else none
  | .newCustomEvent =>
    if (.building none ∈ s.holders ∧ s.registered = none) ∧ s.fresh .registration ∧
        s.fresh .customEvent then
      some (newCustomEvent s)
    else none
  | .newCustomEventFails leaks =>
    if .building none ∈ s.holders ∧ s.registered = none then some (newCustomEventFails s leaks)
    else none
  | .runWorker w =>
    if (.building none ∈ s.holders ∧ s.registered = some true) ∧ s.fresh (.worker w) then
      some (runWorker s w)
    else none
  | .runWorkerFails w =>
    if (.building none ∈ s.holders ∧ s.registered = some true) ∧ s.fresh (.worker w) then
      some (runWorkerFails s w)
    else none
  | .pushWorker w => if .building (some w) ∈ s.holders then some (pushWorker s w) else none
  | .built =>
    if .building none ∈ s.holders ∧ s.registered = some true then some (built s) else none
  | .handle =>
    if .value .threadPool ∈ s.holders ∨ .value .handle ∈ s.holders then some (acquire s .handle)
    else none
  | .queueHandle =>
    if .value .epoll ∈ s.holders ∨ .value .queueHandle ∈ s.holders ∨ .value .handle ∈ s.holders then
      some (acquire s .queueHandle)
    else none
  | .dropValue v => if .value v ∈ s.holders then some (dropValue s v) else none
  | .removeWorker w =>
    if .thread w ∈ s.holders ∧ ⟨.pool, .worker w⟩ ∈ s.heap.owned then some (removeWorker s w)
    else none
  | .endThread w => if .leaving w ∈ s.holders then some (endThread s w) else none
  | .dropField x => if x ∈ s.heap.dropping then some (dropField s x) else none

def machine : Machine State Act where
  init s := s = initial
  step := step

inductive Step (s : State) : Act → State → Prop
  | new (hholder : .value .epoll ∈ s.holders) (hqueue : s.heap.count .eventQueue = none)
      (hpool : s.heap.count .pool = none) : Step s .new (new s)
  | newCustomEvent (hholder : .building none ∈ s.holders) (hregistered : s.registered = none)
      (hregistration : s.heap.count .registration = none)
      (hevent : s.heap.count .customEvent = none) : Step s .newCustomEvent (newCustomEvent s)
  | newCustomEventFails {leaks : Bool} (hholder : .building none ∈ s.holders)
      (hregistered : s.registered = none) :
      Step s (.newCustomEventFails leaks) (newCustomEventFails s leaks)
  | runWorker {w : ℕ} (hholder : .building none ∈ s.holders)
      (hregistered : s.registered = some true) (hworker : s.heap.count (.worker w) = none) :
      Step s (.runWorker w) (runWorker s w)
  | runWorkerFails {w : ℕ} (hholder : .building none ∈ s.holders)
      (hregistered : s.registered = some true) (hworker : s.heap.count (.worker w) = none) :
      Step s (.runWorkerFails w) (runWorkerFails s w)
  | pushWorker {w : ℕ} (hholder : .building (some w) ∈ s.holders) :
      Step s (.pushWorker w) (pushWorker s w)
  | built (hholder : .building none ∈ s.holders) (hregistered : s.registered = some true) :
      Step s .built (built s)
  | handle (hholder : .value .threadPool ∈ s.holders ∨ .value .handle ∈ s.holders) :
      Step s .handle (acquire s .handle)
  | queueHandle (hholder : .value .epoll ∈ s.holders ∨ .value .queueHandle ∈ s.holders ∨
      .value .handle ∈ s.holders) : Step s .queueHandle (acquire s .queueHandle)
  | dropValue {v : Value} (hholder : .value v ∈ s.holders) : Step s (.dropValue v) (dropValue s v)
  | removeWorker {w : ℕ} (hholder : .thread w ∈ s.holders)
      (hlisted : ⟨.pool, .worker w⟩ ∈ s.heap.owned) : Step s (.removeWorker w) (removeWorker s w)
  | endThread {w : ℕ} (hholder : .leaving w ∈ s.holders) : Step s (.endThread w) (endThread s w)
  | dropField {x : Obj} (hx : x ∈ s.heap.dropping) : Step s (.dropField x) (dropField s x)

section Proofs

variable {s t : State} {a : Act} {x : Obj} {y : Holder} {w : ℕ}

@[simp] theorem fresh_iff : s.fresh x = true ↔ s.heap.count x = none := by simp [State.fresh]

theorem step_cases (hs : step s a = some t) : Step s a t := by
  cases a <;>
    simp only [step, Option.ite_none_right_eq_some, Option.some.injEq, fresh_iff] at hs <;>
    obtain ⟨hguard, rfl⟩ := hs
  case new => exact .new hguard.1 hguard.2.1 hguard.2.2
  case newCustomEvent => exact .newCustomEvent hguard.1.1 hguard.1.2 hguard.2.1 hguard.2.2
  case newCustomEventFails => exact .newCustomEventFails hguard.1 hguard.2
  case runWorker => exact .runWorker hguard.1.1 hguard.1.2 hguard.2
  case runWorkerFails => exact .runWorkerFails hguard.1.1 hguard.1.2 hguard.2
  case pushWorker => exact .pushWorker hguard
  case built => exact .built hguard.1 hguard.2
  case handle => exact .handle hguard
  case queueHandle => exact .queueHandle hguard
  case dropValue => exact .dropValue hguard
  case removeWorker => exact .removeWorker hguard.1 hguard.2
  case endThread => exact .endThread hguard
  case dropField => exact .dropField hguard

inductive Allocates : Act → Obj → Prop
  | eventQueue : Allocates .new .eventQueue
  | pool : Allocates .new .pool
  | registration : Allocates .newCustomEvent .registration
  | customEvent : Allocates .newCustomEvent .customEvent
  | worker (w : ℕ) : Allocates (.runWorker w) (.worker w)
  | workerFails (w : ℕ) : Allocates (.runWorkerFails w) (.worker w)

inductive Stores : Act → FieldRef Obj → Prop
  | eventQueue : Stores .new ⟨.pool, .eventQueue⟩
  | inner : Stores .new ⟨.eventQueue, .inner⟩
  | queue : Stores .newCustomEvent ⟨.registration, .inner⟩
  | handler : Stores .newCustomEvent ⟨.customEvent, .pool⟩
  | registration : Stores .newCustomEvent ⟨.customEvent, .registration⟩
  | customEvents : Stores .newCustomEvent ⟨.inner, .customEvent⟩
  | workerPool (w : ℕ) : Stores (.runWorker w) ⟨.worker w, .pool⟩
  | workerPoolFails (w : ℕ) : Stores (.runWorkerFails w) ⟨.worker w, .pool⟩
  | workers (w : ℕ) : Stores (.pushWorker w) ⟨.pool, .worker w⟩

/-- What an action does to the heap, but for the one that takes a worker out of the pool. -/
abbrev Evolves (a : Act) (h : OwnershipHeap Obj) (roots : List Obj) (h' : OwnershipHeap Obj)
    (roots' : List Obj) : Prop :=
  h.Evolves (Allocates a) (Stores a) roots h' roots'

theorem roots_perm_erase (hy : y ∈ s.holders) :
    s.roots.Perm (y.refs ++ (s.holders.erase y).flatMap Holder.refs) :=
  (List.perm_cons_erase hy).flatMap_right Holder.refs

theorem mem_refs_of_holder (hy : y ∈ s.holders) (hx : x ∈ y.refs) : x ∈ s.refs :=
  List.mem_append_left _ (List.mem_flatMap.mpr ⟨y, hy, hx⟩)

/-- A holder passes its references on, or gives them up. -/
theorem pass_evolves {heap : OwnershipHeap Obj} {ys : List Holder} (hy : y ∈ s.holders)
    (hev : ∀ rest, s.refs ⊆ s.heap.refs (y.refs ++ rest) →
      Evolves a s.heap (y.refs ++ rest) heap (ys.flatMap Holder.refs ++ rest)) :
    Evolves a s.heap s.roots (s.pass heap y ys).heap (s.pass heap y ys).roots := by
  have hperm := roots_perm_erase hy
  rw [show (s.pass heap y ys).roots = ys.flatMap Holder.refs ++
    (s.holders.erase y).flatMap Holder.refs from List.flatMap_append ..]
  exact .trans (.perm hperm) (hev _ (hperm.append_right _).subset)

theorem new_evolves (hholder : .value .epoll ∈ s.holders) (hqueue : s.heap.count .eventQueue = none)
    (hpool : s.heap.count .pool = none) :
    Evolves .new s.heap s.roots (new s).heap (new s).roots := by
  refine pass_evolves hholder fun rest _ => ?_
  have hinner : Evolves .new s.heap ([.inner] ++ rest) (s.heap.alloc .eventQueue [.inner])
      ([.eventQueue] ++ rest) := .alloc _ .eventQueue (by simp [Stores.inner]) hqueue
  refine .trans hinner (.alloc _ .pool (by simp [Stores.eventQueue]) ?_)
  simpa using hpool

theorem newCustomEvent_evolves (hpool : .pool ∈ s.refs) (hinner : .inner ∈ s.refs)
    (hregistration : s.heap.count .registration = none)
    (hevent : s.heap.count .customEvent = none) :
    Evolves .newCustomEvent s.heap s.roots (newCustomEvent s).heap (newCustomEvent s).roots := by
  have hretain : Evolves .newCustomEvent s.heap s.roots (s.heap.retainAll [.pool, .inner])
      ([.inner] ++ .pool :: s.roots) :=
    .trans (.retainAll (by simpa using ⟨hpool, hinner⟩)) (.perm (.swap ..))
  have hregister : Evolves .newCustomEvent (s.heap.retainAll [.pool, .inner])
      ([.inner] ++ .pool :: s.roots) (registerHeap s.heap) ([.pool, .registration] ++ s.roots) :=
    .trans (.alloc _ .registration (by simp [Stores.queue])
      (by simpa [OwnershipHeap.retainAll] using hregistration)) (.perm (.swap ..))
  have hbox : Evolves .newCustomEvent (registerHeap s.heap) ([.pool, .registration] ++ s.roots)
      ((registerHeap s.heap).alloc .customEvent [.pool, .registration])
      (.customEvent :: s.roots) :=
    .alloc _ .customEvent (by simp [Stores.handler, Stores.registration])
      (by simpa [registerHeap, OwnershipHeap.retainAll] using hevent)
  refine .trans hretain (.trans hregister (.trans hbox (.push ?_ .customEvents)))
  simp [OwnershipHeap.mem_refs, OwnershipHeap.targets, OwnershipHeap.alloc, registerHeap]

theorem runWorkerHeap_evolves {h : OwnershipHeap Obj} {roots : List Obj}
    (hpool : .pool ∈ h.refs roots) (hqueue : .eventQueue ∈ h.refs roots)
    (hworker : h.count (.worker w) = none) (hallocates : Allocates a (.worker w))
    (hstores : Stores a ⟨.worker w, .pool⟩) :
    Evolves a h roots (runWorkerHeap h w) (.worker w :: .worker w :: .eventQueue :: roots) := by
  have hretain : Evolves a h roots (h.retainAll [.pool, .eventQueue])
      ([.pool] ++ .eventQueue :: roots) := .retainAll (by simp [hpool, hqueue])
  have halloc : Evolves a (h.retainAll [.pool, .eventQueue]) ([.pool] ++ .eventQueue :: roots)
      ((h.retainAll [.pool, .eventQueue]).alloc (.worker w) [.pool])
      (.worker w :: .eventQueue :: roots) :=
    .alloc _ hallocates (by simpa using hstores)
      (by simpa [OwnershipHeap.retainAll] using hworker)
  exact .trans hretain (.trans halloc (.retain (OwnershipHeap.mem_refs_cons.mpr (.inl rfl))))

theorem newCustomEventFails_evolves {leaks : Bool} (hholder : .building none ∈ s.holders)
    (hinner : .inner ∈ s.refs) :
    Evolves a s.heap s.roots (newCustomEventFails s leaks).heap
      (newCustomEventFails s leaks).roots := by
  refine pass_evolves hholder fun rest hrest => ?_
  have hpool : .pool ∈ s.refs := mem_refs_of_holder hholder (by simp [Holder.refs])
  have hretain : Evolves a s.heap ([.pool] ++ rest)
      (s.heap.retainAll (.pool :: if leaks then [.inner] else []))
      (.pool :: (if leaks then [.inner] else []) ++ ([.pool] ++ rest)) := by
    refine .retainAll fun x hx => hrest ?_
    cases leaks <;> simp at hx
    · exact hx ▸ hpool
    · rcases hx with rfl | rfl
      · exact hpool
      · exact hinner
  refine .trans hretain (.trans (.perm ?_) .releaseAll)
  cases leaks with
  | false => exact .refl _
  | true => exact .cons _ (.swap ..)

/-- The worker that is returned, and what its thread holds. -/
theorem runWorker_perm {rest : List Obj} :
    (.worker w :: .worker w :: .eventQueue :: ([.pool] ++ rest)).Perm
      (([.worker w, .pool] ++ [.worker w, .eventQueue]) ++ rest) :=
  .cons _ (show ([Obj.worker w, .eventQueue] ++ .pool :: rest).Perm
    (.pool :: ([.worker w, .eventQueue] ++ rest)) from List.perm_middle)

theorem runWorker_evolves (hholder : .building none ∈ s.holders) (hqueue : .eventQueue ∈ s.refs)
    (hworker : s.heap.count (.worker w) = none) :
    Evolves (.runWorker w) s.heap s.roots (runWorker s w).heap (runWorker s w).roots := by
  refine pass_evolves hholder fun rest hrest => ?_
  have hpool : .pool ∈ s.refs := mem_refs_of_holder hholder (by simp [Holder.refs])
  exact .trans (runWorkerHeap_evolves (hrest hpool) (hrest hqueue) hworker (.worker w)
    (.workerPool w)) (.perm runWorker_perm)

theorem runWorkerFails_evolves (hholder : .building none ∈ s.holders)
    (hqueue : .eventQueue ∈ s.refs) (hworker : s.heap.count (.worker w) = none) :
    Evolves (.runWorkerFails w) s.heap s.roots (runWorkerFails s w).heap
      (runWorkerFails s w).roots := by
  refine pass_evolves hholder fun rest hrest => ?_
  have hpool : .pool ∈ s.refs := mem_refs_of_holder hholder (by simp [Holder.refs])
  refine .trans (runWorkerHeap_evolves (hrest hpool) (hrest hqueue) hworker (.workerFails w)
    (.workerPoolFails w))
    (.trans (.perm ?_) .releaseAll)
  exact .cons _ (.swap ..)

theorem acquire_evolves {v : Value} (hv : ∀ x ∈ v.refs, x ∈ s.refs) :
    Evolves a s.heap s.roots (acquire s v).heap (acquire s v).roots :=
  .retainAll hv

/-- Each action but `removeWorker` is a run of heap operations, given that what it takes from the
fields of the pool is there. -/
theorem step_evolves (hs : Step s a t) (ha : ∀ w, a ≠ .removeWorker w)
    (hfields : .pool ∈ s.roots → .eventQueue ∈ s.refs ∧ .inner ∈ s.refs) :
    Evolves a s.heap s.roots t.heap t.roots := by
  have hroot : ∀ y ∈ s.holders, .pool ∈ y.refs → .pool ∈ s.roots := fun y hy hmem =>
    List.mem_flatMap.mpr ⟨y, hy, hmem⟩
  cases hs with
  | new hholder hqueue hpool => exact new_evolves hholder hqueue hpool
  | newCustomEvent hholder _ hregistration hevent =>
    have hpool := hroot _ hholder (by simp [Holder.refs])
    exact newCustomEvent_evolves (List.mem_append_left _ hpool) (hfields hpool).2 hregistration
      hevent
  | newCustomEventFails hholder =>
    exact newCustomEventFails_evolves hholder
      (hfields (hroot _ hholder (by simp [Holder.refs]))).2
  | runWorker hholder _ hworker =>
    exact runWorker_evolves hholder (hfields (hroot _ hholder (by simp [Holder.refs]))).1 hworker
  | runWorkerFails hholder _ hworker =>
    exact runWorkerFails_evolves hholder (hfields (hroot _ hholder (by simp [Holder.refs]))).1
      hworker
  | pushWorker hholder =>
    refine pass_evolves hholder fun rest _ => .push ?_ (.workers _)
    exact OwnershipHeap.mem_refs.mpr (.inl (by simp))
  | built hholder => exact pass_evolves hholder fun rest _ => .perm (.refl _)
  | handle hholder =>
    have hpool : .pool ∈ s.roots := hholder.elim
      (fun hy => hroot _ hy (by simp [Holder.refs, Value.refs]))
      fun hy => hroot _ hy (by simp [Holder.refs, Value.refs])
    refine acquire_evolves fun x hx => ?_
    rcases List.mem_pair.mp hx with rfl | rfl
    · exact List.mem_append_left _ hpool
    · exact (hfields hpool).2
  | queueHandle hholder =>
    refine acquire_evolves fun x hx => ?_
    obtain rfl := List.mem_singleton.mp hx
    rcases hholder with hholder | hholder | hholder <;>
      exact mem_refs_of_holder hholder (by simp [Holder.refs, Value.refs])
  | dropValue hholder => exact pass_evolves hholder fun rest _ => .releaseAll
  | removeWorker => exact absurd rfl (ha _)
  | endThread hholder => exact pass_evolves hholder fun rest _ => .releaseAll
  | dropField hx => exact .dropField hx

/-- The heap after a worker was taken out of the pool, before that reference is dropped. -/
theorem pull_ok (hok : s.heap.Ok s.roots) (hholder : .thread w ∈ s.holders)
    (hlisted : ⟨.pool, .worker w⟩ ∈ s.heap.owned) : (s.heap.pull .pool (.worker w)).Ok
      (.worker w :: ([.worker w, .eventQueue] ++
        (s.holders.erase (.thread w)).flatMap Holder.refs)) :=
  (hok.perm (roots_perm_erase hholder)).pull hlisted

theorem removeWorker_ok (hok : s.heap.Ok s.roots) (hholder : .thread w ∈ s.holders)
    (hlisted : ⟨.pool, .worker w⟩ ∈ s.heap.owned) :
    (removeWorker s w).heap.Ok (removeWorker s w).roots :=
  (pull_ok hok hholder hlisted).release

end Proofs

end CompleteIo.PoolOwnership
