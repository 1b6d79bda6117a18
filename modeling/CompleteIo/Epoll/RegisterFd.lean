import CompleteIo.Epoll.EventMask
import CompleteIo.Lib.ArcCell
import Mathlib.Logic.Function.Basic

namespace CompleteIo

namespace EventMode

def allBits : BitVec 32 := 0x80000000#32 ||| 0x40000000#32

end EventMode

abbrev EventMode := Flags EventMode.allBits

namespace EventMode

def EDGE : EventMode := ⟨0x80000000#32, rfl⟩
def ONE_SHOT : EventMode := ⟨0x40000000#32, rfl⟩

end EventMode

namespace RegisterFd

/-- A `_Registration`; its `queue` is a reference to the one `Inner` there is. -/
structure Registration (H R : Type*) where
  fd : ℕ
  -- The weak pointer that this is the representation of.
  epollData : Option R
  handler : H
  deriving DecidableEq

structure Entry (R : Type*) where
  events : BitVec 32
  data : R
  deriving DecidableEq

structure CustomEvent (R : Type*) where
  ptr : ℕ
  eventFd : ℕ
  registration : R
  deriving DecidableEq

structure EventTag where
  ptr : ℕ
  epollFd : ℕ
  deriving DecidableEq

/-- An epoll instance, with the strong references that the library holds to its `Inner` and to
the handlers of its registrations. -/
structure State (H R : Type*) where
  epollFd : ℕ
  inner : ℕ
  handler : H → ℕ
  event : H → Option ℕ
  registration : R → Option (ArcCell (Registration H R))
  -- The values that were forgotten, so that their fields are never dropped.
  forgotten : List (Registration H R)
  epollSet : ℕ → Option (Entry R)
  deleted : List ℕ
  openFds : List ℕ
  customEvents : List (CustomEvent R)

variable {H R : Type*}

section Operations

variable [DecidableEq H] [DecidableEq R]

def State.retainHandler (s : State H R) (h : H) : State H R :=
  { s with handler := Function.update s.handler h (s.handler h + 1) }

def State.releaseHandler (s : State H R) (h : H) : State H R :=
  { s with handler := Function.update s.handler h (s.handler h - 1) }

def State.setRegistration (s : State H R) (r : R) (arc : ArcCell (Registration H R)) :
    State H R :=
  { s with registration := Function.update s.registration r (some arc) }

/-- `Handle::register_fd_raw`, for the new `Arc` `r` and with what `EPOLL_CTL_ADD` comes to; none
where it panics. The library takes over the reference to the handler. -/
def registerFdRaw (s : State H R) (r : R) (fd : ℕ) (eventMask : EventMask) (mode : EventMode)
    (handler : H) (added : Except ℕ Unit) : Option (State H R × Except ℕ R) :=
  let arc := (ArcCell.new ⟨fd, none, handler⟩).downgrade.modify fun v =>
    { v with epollData := some r }
  let s := { s.retainHandler handler with inner := s.inner + 1 }
  match added with
  | .ok () =>
    let entry : Entry R := ⟨eventMask.bits ||| mode.bits, r⟩
    some ({ s.setRegistration r arc with epollSet := Function.update s.epollSet fd (some entry) },
      .ok r)
  -- The weak reference that was made for the kernel is dropped first.
  | .error errno => arc.dropWeak.tryUnwrap.map fun (value, arc) =>
      ({ s.setRegistration r arc with forgotten := value :: s.forgotten }, .error errno)

/-- The fields of a `_Registration`, in the order of their drop. -/
def dropFields (s : State H R) (value : Registration H R) : State H R :=
  { s with inner := s.inner - 1 }.releaseHandler value.handler

/-- `Drop for _Registration`; `ok` tells if `EPOLL_CTL_DEL` succeeds. -/
def dropValue (s : State H R) (r : R) (value : Registration H R) (ok : Bool) : State H R :=
  let s := { s with deleted := value.fd :: s.deleted }
  if ok then
    { s with
      epollSet := Function.update s.epollSet value.fd none
      registration := Function.update s.registration r ((s.registration r).map .dropWeak) }
  else s

def dropRegistration (s : State H R) (r : R) (ok : Bool) : State H R :=
  match s.registration r with
  | none => s
  | some arc =>
    match arc.tryUnwrap with
    | none => s.setRegistration r { arc with strong := arc.strong - 1 }
    | some (value, _) =>
      let s := dropFields (dropValue s r value ok) value
      { s with
        registration := Function.update s.registration r ((s.registration r).map .takeValue) }

def newFuturesRegistration (s : State H R) (r : R) (inner : H) (fd : ℕ)
    (added : Except ℕ Unit) : Option (State H R × Except ℕ (R × H)) :=
  (registerFdRaw (s.retainHandler inner) r fd ∅ (EventMode.EDGE ∪ EventMode.ONE_SHOT) inner
    added).map fun
  | (s, .ok r) => (s, .ok (r, inner))
  | (s, .error errno) => (s.releaseHandler inner, .error errno)

def newCustomEvent (s : State H R) (r : R) (regHandler : H) (ptr : ℕ) (eventFd : Except ℕ ℕ)
    (added : Except ℕ Unit) : Option (State H R × Except ℕ EventTag) :=
  match eventFd with
  | .error errno => some (s, .error errno)
  | .ok fd =>
    -- `self.handle()` lives to the end of the statement.
    let s := { s.retainHandler regHandler with
      openFds := fd :: s.openFds
      inner := s.inner + 1 }
    (registerFdRaw s r fd EventMask.READ EventMode.ONE_SHOT regHandler added).map fun
    | (s, .ok r) =>
      ({ s.releaseHandler regHandler with
        inner := s.inner - 1
        event := Function.update s.event regHandler (some ptr)
        customEvents := s.customEvents ++ [⟨ptr, fd, r⟩] }, .ok ⟨ptr, s.epollFd⟩)
    | (s, .error errno) =>
      ({ s.releaseHandler regHandler with inner := s.inner - 1 }, .error errno)

/-- What a failed registration is to leave: the counts, the fds and the table as they were, and
the memory of the registration freed once without an `EPOLL_CTL_DEL`. -/
structure Restored (s t : State H R) (r : R) : Prop where
  inner : t.inner = s.inner
  handler : t.handler = s.handler
  openFds : t.openFds = s.openFds
  customEvents : t.customEvents = s.customEvents
  freed : (t.registration r).map ArcCell.frees = some 1
  deleted : t.deleted = s.deleted

/-- What it leaves: a reference to `Inner`, one to the handler, and the fds that were opened. -/
structure Leaks (s t : State H R) (r : R) (h : H) (opened : List ℕ) : Prop where
  inner : t.inner = s.inner + 1
  handler : t.handler = Function.update s.handler h (s.handler h + 1)
  openFds : t.openFds = opened ++ s.openFds
  customEvents : t.customEvents = s.customEvents
  epollSet : t.epollSet = s.epollSet
  freed : (t.registration r).map ArcCell.frees = some 1
  deleted : t.deleted = s.deleted

variable {s t : State H R} {r : R} {h : H} {fd errno : ℕ} {eventMask : EventMask}
  {mode : EventMode}

omit [DecidableEq R] in
theorem Leaks.not_restored {opened : List ℕ} (hleaks : Leaks s t r h opened) :
    ¬ Restored s t r := fun hrestored => by
  have hinner := hrestored.inner
  rw [hleaks.inner] at hinner
  omega

/-- The weak reference is given back and the memory freed, but the value is forgotten. -/
theorem registerFdRaw_error :
    registerFdRaw s r fd eventMask mode h (.error errno) =
      some ({ (s.retainHandler h).setRegistration r ⟨0, 0, none, 1⟩ with
        inner := s.inner + 1
        forgotten := ⟨fd, some r, h⟩ :: s.forgotten }, .error errno) := by
  simp only [registerFdRaw, ArcCell.modify_downgrade, ArcCell.modify_new,
    ArcCell.dropWeak_downgrade_new, ArcCell.tryUnwrap_new, Option.map_some]
  rfl

theorem registerFdRaw_leaks :
    ∃ t, registerFdRaw s r fd eventMask mode h (.error errno) = some (t, .error errno) ∧
      Leaks s t r h [] := by
  refine ⟨_, registerFdRaw_error, rfl, rfl, rfl, rfl, rfl, ?_, rfl⟩
  simp [State.setRegistration]

theorem newFuturesRegistration_leaks :
    ∃ t, newFuturesRegistration s r h fd (.error errno) = some (t, .error errno) ∧
      Leaks s t r h [] := by
  obtain ⟨t, ht, hleaks⟩ := @registerFdRaw_leaks _ _ _ _ (s.retainHandler h) r h fd errno ∅
    (EventMode.EDGE ∪ EventMode.ONE_SHOT)
  refine ⟨t.releaseHandler h, by simp only [newFuturesRegistration, ht, Option.map_some], ?_⟩
  refine { hleaks with handler := ?_ }
  simp [State.releaseHandler, hleaks.handler, State.retainHandler]

/-- The temporary handle and `reg_handler` are dropped on the way out, but the eventfd is only a
number. -/
theorem newCustomEvent_leaks {ptr : ℕ} :
    ∃ t, newCustomEvent s r h ptr (.ok fd) (.error errno) = some (t, .error errno) ∧
      Leaks s t r h [fd] := by
  obtain ⟨t, ht, hleaks⟩ := @registerFdRaw_leaks _ _ _ _
    { s.retainHandler h with openFds := fd :: s.openFds, inner := s.inner + 1 } r h fd errno
    EventMask.READ EventMode.ONE_SHOT
  refine ⟨{ t.releaseHandler h with inner := t.inner - 1 },
    by simp only [newCustomEvent, ht, Option.map_some], ?_⟩
  refine { hleaks with inner := ?_, handler := ?_, openFds := hleaks.openFds }
  · rw [hleaks.inner]
    rfl
  · simp [State.releaseHandler, hleaks.handler, State.retainHandler]

/-- Whatever the state, none of the three calls restores it when `EPOLL_CTL_ADD` fails. -/
theorem failed_registration_leaks (s : State H R) (r : R) (h : H) (fd errno ptr : ℕ)
    (eventMask : EventMask) (mode : EventMode) :
    (∃ t, registerFdRaw s r fd eventMask mode h (.error errno) = some (t, .error errno) ∧
      Leaks s t r h [] ∧ ¬ Restored s t r) ∧
    (∃ t, newFuturesRegistration s r h fd (.error errno) = some (t, .error errno) ∧
      Leaks s t r h [] ∧ ¬ Restored s t r) ∧
    ∃ t, newCustomEvent s r h ptr (.ok fd) (.error errno) = some (t, .error errno) ∧
      Leaks s t r h [fd] ∧ ¬ Restored s t r := by
  obtain ⟨t, ht, hraw⟩ := @registerFdRaw_leaks _ _ _ _ s r h fd errno eventMask mode
  obtain ⟨u, hu, hnew⟩ := @newFuturesRegistration_leaks _ _ _ _ s r h fd errno
  obtain ⟨v, hv, hcustom⟩ := @newCustomEvent_leaks _ _ _ _ s r h fd errno ptr
  exact ⟨⟨t, ht, hraw, hraw.not_restored⟩, ⟨u, hu, hnew, hnew.not_restored⟩,
    v, hv, hcustom, hcustom.not_restored⟩

/-- The references that are leaked are those in the fields of the value that was forgotten. -/
theorem dropFields_forgotten {value : Registration H R} {result : Except ℕ R}
    (ht : registerFdRaw s r fd eventMask mode h (.error errno) = some (t, result))
    (hvalue : t.forgotten = value :: s.forgotten) :
    (dropFields t value).inner = s.inner ∧ (dropFields t value).handler = s.handler := by
  rw [registerFdRaw_error] at ht
  cases ht
  obtain ⟨rfl, -⟩ := List.cons.inj hvalue
  simp [dropFields, State.releaseHandler, State.retainHandler, State.setRegistration]

/-- A registration that succeeds and is dropped gives back all that it took. -/
theorem dropRegistration_restores {result : Except ℕ R}
    (ht : registerFdRaw s r fd eventMask mode h (.ok ()) = some (t, result)) :
    let u := dropRegistration t r true
    u.inner = s.inner ∧ u.handler = s.handler ∧ u.deleted = fd :: s.deleted ∧
      (u.registration r).map ArcCell.frees = some 1 := by
  cases ht
  simp [dropRegistration, dropValue, dropFields, State.releaseHandler, State.retainHandler,
    State.setRegistration, ArcCell.tryUnwrap, ArcCell.new, ArcCell.modify, ArcCell.downgrade,
    ArcCell.dropWeak, ArcCell.takeValue]

end Operations

def initial (epollFd : ℕ) : State ℕ ℕ where
  epollFd := epollFd
  inner := 1
  handler _ := 0
  event _ := none
  registration _ := none
  forgotten := []
  epollSet _ := none
  deleted := []
  openFds := []
  customEvents := []

/-- A custom event for which the epoll set has no room, and its eventfd, which nobody closes. -/
theorem newCustomEvent_leaks_eventfd :
    (∃ t, newCustomEvent (initial 3) 0 0 64 (.ok 7) (.error 28) = some (t, .error 28) ∧
      t.inner = 2 ∧ t.handler 0 = 1 ∧ t.openFds = [7] ∧ t.customEvents = []) ∧
    ¬ ∀ (s t : State ℕ ℕ) (r h fd errno ptr : ℕ),
      newCustomEvent s r h ptr (.ok fd) (.error errno) = some (t, .error errno) →
        Restored s t r := by
  have hrun : ∃ t, newCustomEvent (initial 3) 0 0 64 (.ok 7) (.error 28) = some (t, .error 28) ∧
      t.inner = 2 ∧ t.handler 0 = 1 ∧ t.openFds = [7] ∧ t.customEvents = [] :=
    ⟨_, rfl, rfl, rfl, rfl, rfl⟩
  refine ⟨hrun, fun hall => ?_⟩
  obtain ⟨t, ht, -, -, hopen, -⟩ := hrun
  have hrestored := (hall _ _ _ _ _ _ _ ht).openFds
  rw [hopen] at hrestored
  cases hrestored

end RegisterFd

end CompleteIo
