import CompleteIo.Epoll.ReadInPlace

namespace CompleteIo.WriteFutures

/-- What `send` or `send_to` comes to. After it would have blocked, `add_interest` gives an
interest or fails. -/
inductive Outcome (ι : Type*)
  | sent (byteCount : ℕ)
  | wouldBlock (added : Except ℕ ι)
  | failed (errno : ℕ)

/-- What one `poll` meets: whether its interest, if it has one, has fired, and what the system
call, if it makes one, comes to. -/
structure Attempt (ι : Type*) where
  fired : Bool
  outcome : Outcome ι

/-- `TcpWriteState` and `SendToState`; a `TcpWrite` has no address. -/
inductive WriteState (S A ι : Type*)
  | pending (socket : S) (buffer : List UInt8) (addr : A) (interest : Option ι)
  | none

inductive WriteError
  | os (errno : ℕ)
  | writeZero
  deriving DecidableEq

inductive Poll (Item : Type*)
  | notReady
  | ready (item : Item)
  | err (e : WriteError)
  | panics
  deriving DecidableEq

variable {S A ι Item : Type*}

def Attempt.sends (a : Attempt ι) (interest : Option ι) : Prop :=
  interest.isSome = true → a.fired = true

instance (a : Attempt ι) (interest : Option ι) : Decidable (a.sends interest) :=
  inferInstanceAs (Decidable (_ → _))

def poll (finish : S → List UInt8 → ℕ → Poll Item) (future : WriteState S A ι) (a : Attempt ι) :
    WriteState S A ι × Poll Item :=
  match future with
  | .none => (.none, .panics)
  | .pending socket buffer addr interest =>
    if a.sends interest then
      match a.outcome, interest with
      | .wouldBlock _, some x => (.pending socket buffer addr (some x), .notReady)
      | .wouldBlock (.ok x), none => (.pending socket buffer addr (some x), .notReady)
      | .wouldBlock (.error errno), none => (.none, .err (.os errno))
      | .failed errno, _ => (.none, .err (.os errno))
      | .sent byteCount, _ => (.none, finish socket buffer byteCount)
    else (.pending socket buffer addr interest, .notReady)

def TcpWrite.finish (socket : S) (bytes : List UInt8) (byteCount : ℕ) :
    Poll (S × List UInt8 × ℕ) :=
  .ready (socket, bytes, byteCount)

/-- A datagram that was not sent whole is an error. -/
def SendTo.finish (socket : S) (buffer : List UInt8) (byteCount : ℕ) : Poll (S × List UInt8) :=
  if byteCount ≠ buffer.length then .err .writeZero else .ready (socket, buffer)

def TcpWrite.poll :
    WriteState S Unit ι → Attempt ι → WriteState S Unit ι × Poll (S × List UInt8 × ℕ) :=
  WriteFutures.poll TcpWrite.finish

def SendTo.poll : WriteState S A ι → Attempt ι → WriteState S A ι × Poll (S × List UInt8) :=
  WriteFutures.poll SendTo.finish

def write (socket : S) (buffer : List UInt8) : WriteState S Unit ι := .pending socket buffer () none

def sendTo (socket : S) (buffer : List UInt8) (addr : A) : WriteState S A ι :=
  .pending socket buffer addr none

/-- What the system call of a poll, if it makes one, sends of which buffer, and where to. -/
def sends (future : WriteState S A ι) (a : Attempt ι) : Option (S × List UInt8 × A × ℕ) :=
  match future, a.outcome with
  | .pending socket buffer addr interest, .sent byteCount =>
    if a.sends interest then some (socket, buffer, addr, byteCount) else none
  | _, _ => none

variable {finish : S → List UInt8 → ℕ → Poll Item} {future : WriteState S A ι} {a : Attempt ι}
  {socket : S} {buffer : List UInt8} {addr : A} {byteCount : ℕ} {interest : Option ι}

theorem pending_of_sends (h : sends future a = some (socket, buffer, addr, byteCount)) :
    ∃ interest, future = .pending socket buffer addr interest := by
  unfold sends at h
  split at h
  · cases (Option.ite_none_right_eq_some.mp h).2
    exact ⟨_, rfl⟩
  · cases h

/-- Whatever a poll leaves pending was pending before, for the same socket, buffer and address. -/
theorem pending_of_poll (h : (poll finish future a).1 = .pending socket buffer addr interest) :
    ∃ interest', future = .pending socket buffer addr interest' := by
  cases future with
  | none => cases h
  | pending socket' buffer' addr' interest' =>
    unfold poll at h
    dsimp only at h
    split at h
    · split at h <;> cases h <;> exact ⟨_, rfl⟩
    · cases h
      exact ⟨_, rfl⟩

/-- A poll that sends ends the future with the count. -/
theorem poll_of_sends (h : sends future a = some (socket, buffer, addr, byteCount)) :
    poll finish future a = (.none, finish socket buffer byteCount) := by
  unfold sends at h
  split at h
  · rename_i houtcome
    obtain ⟨hsends, heq⟩ := Option.ite_none_right_eq_some.mp h
    cases heq
    simp only [poll, if_pos hsends, houtcome]
  · cases h

/-- A poll that sends nothing returns no count. -/
theorem poll_of_not_sends (h : sends future a = none) :
    (poll finish future a).2 = .notReady ∨ (poll finish future a).2 = .panics ∨
      ∃ errno, (poll finish future a).2 = .err (.os errno) := by
  unfold sends at h
  cases future with
  | none => simp [poll]
  | pending socket buffer addr interest =>
    by_cases hsends : a.sends interest
    · obtain ⟨fired, outcome⟩ := a
      cases outcome with
      | sent byteCount => simp [hsends] at h
      | failed errno => simp [poll, hsends]
      | wouldBlock added =>
        cases interest <;> cases added <;> simp [poll, hsends]
    · simp [poll, hsends]

end CompleteIo.WriteFutures
