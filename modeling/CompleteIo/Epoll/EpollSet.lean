import Mathlib.Data.List.Basic
import CompleteIo.Lib.Machine

namespace CompleteIo.EpollSet

inductive Kind
  | tcpStream | tcpListener | udpSocket | customEvent
  -- Whoever called `register_fd`, which leaves the fd with the caller.
  | caller
  deriving DecidableEq

inductive TeardownStep
  | closeFd
  | dropRegistration
  | dropField
  deriving DecidableEq

def tcpStreamTeardown : List TeardownStep := [.closeFd, .dropRegistration]

def tcpListenerTeardown : List TeardownStep := [.closeFd, .dropRegistration, .dropField]

def udpSocketTeardown : List TeardownStep := [.closeFd, .dropRegistration]

/-- Its own `drop`, then `handler`, `event_fd`, `registration` and `queue`. -/
def customEventTeardown : List TeardownStep :=
  [.closeFd, .dropField, .dropField, .dropRegistration, .dropField]

def Kind.teardown : Kind → List TeardownStep
  | .tcpStream => tcpStreamTeardown
  | .tcpListener => tcpListenerTeardown
  | .udpSocket => udpSocketTeardown
  | .customEvent => customEventTeardown
  | .caller => []

/-- An fd in the epoll set: the registration whose `EPOLL_CTL_ADD` made the entry, and the one
whose weak pointer `epoll_data` is. -/
structure Entry (R : Type*) where
  addedBy : R
  data : R

inductive Phase
  | unused
  | alive
  | dropping
  -- `EPOLL_CTL_DEL` has succeeded, and the weak pointer that was `epoll_data` is dropped next.
  | deleted
  | released
  -- `EPOLL_CTL_DEL` failed, and the weak pointer is kept for ever.
  | leaked
  deriving DecidableEq

variable {R Θ : Type*}

/-- An epoll set with its registrations `R`, and the calls `Θ` of `Inner::poll`. -/
structure State (R Θ : Type*) where
  isOpen : ℕ → Bool
  closes : ℕ → ℕ
  -- A socket or a custom event has the fd, and nothing else closes it.
  owned : ℕ → Bool
  entry : ℕ → Option (Entry R)
  phase : R → Phase
  fd : R → ℕ
  -- `closes` of the fd when it was registered.
  registeredAt : R → ℕ
  -- The strong references: of owners, and of polls whose handler runs.
  holders : R → List (Option Θ)
  teardown : R → List TeardownStep
  -- The `epoll_data` of the events copied by `epoll_wait` and not dispatched yet.
  buffer : Θ → List R
  handling : Θ → Option R

inductive Act (R Θ : Type*)
  | openFd (fd : ℕ)
  | closeFd (fd : ℕ)
  | register (r : R) (fd : ℕ)
  | modify (r : R) (holder : Option Θ)
  | clone (r : R)
  | dropClone (r : R)
  | tearDown (r : R)
  | ctlDel (r : R)
  | dropWeak (r : R)
  | wait (θ : Θ) (batch : List ℕ)
  | dispatch (θ : Θ)
  | finish (θ : Θ)

def eventBufferSize : ℕ := 32

def initial : State R Θ where
  isOpen _ := false
  closes _ := 0
  owned _ := false
  entry _ := none
  phase _ := .unused
  fd _ := 0
  registeredAt _ := 0
  holders _ := []
  teardown _ := []
  buffer _ := []
  handling _ := none

section Step

variable [DecidableEq R] [DecidableEq Θ]

def State.close (s : State R Θ) (fd : ℕ) : State R Θ :=
  { s with
    isOpen := Function.update s.isOpen fd false
    closes := Function.update s.closes fd (s.closes fd + 1)
    owned := Function.update s.owned fd false
    entry := Function.update s.entry fd none }

/-- `register_fd_raw` after a successful `EPOLL_CTL_ADD`. -/
def State.add (s : State R Θ) (kind : Kind) (r : R) (fd : ℕ) : State R Θ :=
  { s with
    owned := Function.update s.owned fd (kind ≠ .caller)
    entry := Function.update s.entry fd (some ⟨r, r⟩)
    phase := Function.update s.phase r .alive
    fd := Function.update s.fd r fd
    registeredAt := Function.update s.registeredAt r (s.closes fd)
    holders := Function.update s.holders r [none]
    teardown := Function.update s.teardown r kind.teardown }

def State.dropStrong (s : State R Θ) (r : R) (holder : Option Θ) : State R Θ :=
  { s with
    holders := Function.update s.holders r ((s.holders r).erase holder)
    phase := if (s.holders r).erase holder = [] then Function.update s.phase r .dropping
      else s.phase }

def State.setTeardown (s : State R Θ) (r : R) (rest : List TeardownStep) : State R Θ :=
  { s with teardown := Function.update s.teardown r rest }

def modify (s : State R Θ) (r : R) : State R Θ :=
  match s.entry (s.fd r) with
  | none => s
  | some e => { s with entry := Function.update s.entry (s.fd r) (some { e with data := r }) }

/-- `EPOLL_CTL_DEL` in `_Registration::drop`, which goes on to drop the weak pointer only if there
was an entry. -/
def ctlDel (s : State R Θ) (r : R) : State R Θ :=
  match s.entry (s.fd r) with
  | none => { s with phase := Function.update s.phase r .leaked }
  | some _ => { s with
      entry := Function.update s.entry (s.fd r) none
      phase := Function.update s.phase r .deleted }

def dropWeak (s : State R Θ) (r : R) : State R Θ :=
  { s with phase := Function.update s.phase r .released }

def tearDown (s : State R Θ) (r : R) : TeardownStep → State R Θ
  | .closeFd => s.close (s.fd r)
  | .dropRegistration => s.dropStrong r none
  | .dropField => s

def dispatch (s : State R Θ) (θ : Θ) (r : R) (rest : List R) : State R Θ :=
  if s.phase r = .alive then
    { s with
      buffer := Function.update s.buffer θ rest
      handling := Function.update s.handling θ (some r)
      holders := Function.update s.holders r (some θ :: s.holders r) }
  else { s with buffer := Function.update s.buffer θ rest }

def step (kind : R → Kind) (s : State R Θ) : Act R Θ → Option (State R Θ)
  | .openFd fd =>
    if s.isOpen fd = false then some { s with isOpen := Function.update s.isOpen fd true }
    else none
  -- Sockets and custom events close their fds only when they are torn down.
  | .closeFd fd =>
    if s.isOpen fd = true ∧ s.owned fd = false then some (s.close fd) else none
  | .register r fd =>
    if s.phase r = .unused ∧ s.owned fd = false then
      -- Otherwise `EPOLL_CTL_ADD` fails, and nothing remains of the registration.
      if s.isOpen fd = true ∧ (s.entry fd).isNone then some (s.add (kind r) r fd) else some s
    else none
  -- An owner that is being dropped makes no more calls.
  | .modify r none =>
    if none ∈ s.holders r ∧ s.teardown r = (kind r).teardown then some (modify s r) else none
  | .modify r (some θ) => if s.handling θ = some r then some (modify s r) else none
  | .clone r =>
    if kind r = .caller ∧ s.holders r ≠ [] then
      some { s with holders := Function.update s.holders r (none :: s.holders r) }
    else none
  | .dropClone r =>
    if kind r = .caller ∧ none ∈ s.holders r then some (s.dropStrong r none) else none
  | .tearDown r =>
    match s.teardown r with
    | [] => none
    | first :: rest => some ((tearDown s r first).setTeardown r rest)
  | .ctlDel r => if s.phase r = .dropping then some (ctlDel s r) else none
  -- Until then other threads may dispatch the events that they have copied.
  | .dropWeak r => if s.phase r = .deleted then some (dropWeak s r) else none
  -- The kernel reports any entries that are there, each at most once in a batch.
  | .wait θ batch =>
    if s.buffer θ = [] ∧ s.handling θ = none ∧ batch.length ≤ eventBufferSize ∧ batch.Nodup ∧
        batch.all (fun fd => (s.entry fd).isSome) then
      some { s with
        buffer := Function.update s.buffer θ
          (batch.filterMap fun fd => (s.entry fd).map Entry.data) }
    else none
  | .dispatch θ =>
    match s.handling θ, s.buffer θ with
    | none, r :: rest =>
      -- The upgrade of a released pointer is undefined.
      if s.phase r = .released then none else some (dispatch s θ r rest)
    | _, _ => none
  | .finish θ =>
    match s.handling θ with
    | none => none
    | some r =>
      some ({ s with handling := Function.update s.handling θ none }.dropStrong r (some θ))

inductive Step (kind : R → Kind) (s : State R Θ) : Act R Θ → State R Θ → Prop
  | openFd {fd : ℕ} : Step kind s (.openFd fd) { s with isOpen := Function.update s.isOpen fd true }
  | closeFd {fd : ℕ} : Step kind s (.closeFd fd) (s.close fd)
  | register {r : R} {fd : ℕ} (hphase : s.phase r = .unused) (hopen : s.isOpen fd = true)
      (hentry : s.entry fd = none) : Step kind s (.register r fd) (s.add (kind r) r fd)
  | registerFailed {r : R} {fd : ℕ} : Step kind s (.register r fd) s
  | modify {r : R} {holder : Option Θ}
      (hholder : holder = none ∧ none ∈ s.holders r ∨
        ∃ θ, holder = some θ ∧ s.handling θ = some r) :
      Step kind s (.modify r holder) (modify s r)
  | clone {r : R} (hkind : kind r = .caller) (hholders : s.holders r ≠ []) :
      Step kind s (.clone r)
        { s with holders := Function.update s.holders r (none :: s.holders r) }
  | dropClone {r : R} (hkind : kind r = .caller) (hmem : none ∈ s.holders r) :
      Step kind s (.dropClone r) (s.dropStrong r none)
  | tearDown {r : R} {first : TeardownStep} {rest : List TeardownStep}
      (hteardown : s.teardown r = first :: rest) :
      Step kind s (.tearDown r) ((tearDown s r first).setTeardown r rest)
  | ctlDel {r : R} (hphase : s.phase r = .dropping) : Step kind s (.ctlDel r) (ctlDel s r)
  | dropWeak {r : R} (hphase : s.phase r = .deleted) : Step kind s (.dropWeak r) (dropWeak s r)
  | wait {θ : Θ} {batch : List ℕ} (hnil : s.buffer θ = []) :
      Step kind s (.wait θ batch)
        { s with
          buffer := Function.update s.buffer θ
            (batch.filterMap fun fd => (s.entry fd).map Entry.data) }
  | dispatch {θ : Θ} {r : R} {rest : List R} (hhandling : s.handling θ = none)
      (hbuffer : s.buffer θ = r :: rest) (hphase : s.phase r ≠ .released) :
      Step kind s (.dispatch θ) (dispatch s θ r rest)
  | finish {θ : Θ} {r : R} (hhandling : s.handling θ = some r) : Step kind s (.finish θ)
      ({ s with handling := Function.update s.handling θ none }.dropStrong r (some θ))

theorem step_cases {kind : R → Kind} {s t : State R Θ} {a : Act R Θ} (hs : step kind s a = some t) :
    Step kind s a t := by
  cases a with
  | openFd fd =>
    simp only [step, Option.ite_none_right_eq_some, Option.some.injEq] at hs
    exact hs.2 ▸ .openFd
  | closeFd fd =>
    simp only [step, Option.ite_none_right_eq_some, Option.some.injEq] at hs
    exact hs.2 ▸ .closeFd
  | register r fd =>
    simp only [step, Option.ite_none_right_eq_some] at hs
    obtain ⟨⟨hphase, -⟩, hs⟩ := hs
    split at hs
    · rename_i hadd
      exact Option.some.inj hs ▸ .register hphase hadd.1 (Option.isNone_iff_eq_none.mp hadd.2)
    · exact Option.some.inj hs ▸ .registerFailed
  | modify r holder =>
    cases holder with
    | none =>
      simp only [step, Option.ite_none_right_eq_some, Option.some.injEq] at hs
      exact hs.2 ▸ .modify (.inl ⟨rfl, hs.1.1⟩)
    | some θ =>
      simp only [step, Option.ite_none_right_eq_some, Option.some.injEq] at hs
      exact hs.2 ▸ .modify (.inr ⟨θ, rfl, hs.1⟩)
  | clone r =>
    simp only [step, Option.ite_none_right_eq_some, Option.some.injEq] at hs
    exact hs.2 ▸ .clone hs.1.1 hs.1.2
  | dropClone r =>
    simp only [step, Option.ite_none_right_eq_some, Option.some.injEq] at hs
    exact hs.2 ▸ .dropClone hs.1.1 hs.1.2
  | tearDown r =>
    simp only [step] at hs
    split at hs
    · cases hs
    · rename_i hteardown
      exact Option.some.inj hs ▸ .tearDown hteardown
  | ctlDel r =>
    simp only [step, Option.ite_none_right_eq_some, Option.some.injEq] at hs
    exact hs.2 ▸ .ctlDel hs.1
  | dropWeak r =>
    simp only [step, Option.ite_none_right_eq_some, Option.some.injEq] at hs
    exact hs.2 ▸ .dropWeak hs.1
  | wait θ batch =>
    simp only [step, Option.ite_none_right_eq_some, Option.some.injEq] at hs
    exact hs.2 ▸ .wait hs.1.1
  | dispatch θ =>
    simp only [step] at hs
    split at hs
    · rename_i hhandling hbuffer
      simp only [Option.ite_none_left_eq_some, Option.some.injEq] at hs
      exact hs.2 ▸ .dispatch hhandling hbuffer hs.1
    · cases hs
  | finish θ =>
    simp only [step] at hs
    split at hs
    · cases hs
    · rename_i hhandling
      exact Option.some.inj hs ▸ .finish hhandling

def machine (kind : R → Kind) : Machine (State R Θ) (Act R Θ) where
  init s := s = initial
  step := step kind

end Step

end CompleteIo.EpollSet
