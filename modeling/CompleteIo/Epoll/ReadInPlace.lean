import CompleteIo.Lib.Machine
import CompleteIo.Net.ReadBuffer

namespace CompleteIo.ReadInPlace

open ReadBuffer (BytesMut)

/-- What `recv` or `recv_from` comes to, which is offered the whole capacity of the buffer. After
it would have blocked, `add_interest` gives an interest or fails. -/
inductive Outcome (ι A : Type*)
  | received (payload : List UInt8) (source : A)
  | wouldBlock (added : Except ℕ ι)
  | failed (errno : ℕ)

/-- What one `poll` meets: whether its interest, if it has one, has fired, and what the system
call, if it makes one, comes to. -/
structure Attempt (ι A : Type*) where
  fired : Bool
  outcome : Outcome ι A

inductive ReadState (S ι : Type*)
  | pending (socket : S) (buffer : BytesMut) (interest : Option ι)
  | none

inductive Poll (Item : Type*)
  | notReady
  | ready (item : Item)
  | err (errno : ℕ)
  | panics
  deriving DecidableEq

structure State (S ι Item : Type*) where
  future : ReadState S ι
  polls : List (Poll Item)
  receives : ℕ

variable {S ι A Item : Type*}

def Attempt.receives (a : Attempt ι A) (interest : Option ι) : Prop :=
  interest.isSome = true → a.fired = true

instance (a : Attempt ι A) (interest : Option ι) : Decidable (a.receives interest) :=
  inferInstanceAs (Decidable (_ → _))

def poll (item : S → BytesMut → ℕ → A → Item) (s : State S ι Item) (a : Attempt ι A) :
    State S ι Item :=
  match s.future with
  | .none => { s with polls := s.polls ++ [.panics] }
  | .pending socket buffer interest =>
    if a.receives interest then
      let returns future result := State.mk future (s.polls ++ [result]) (s.receives + 1)
      match a.outcome, interest with
      | .wouldBlock _, some x => returns (.pending socket buffer (some x)) .notReady
      | .wouldBlock (.ok x), none => returns (.pending socket buffer (some x)) .notReady
      | .wouldBlock (.error errno), none => returns .none (.err errno)
      | .failed errno, _ => returns .none (.err errno)
      | .received payload source, _ =>
        let written := payload.take buffer.capacity
        returns .none (.ready (item socket (buffer.grow written) written.length source))
    else { s with polls := s.polls ++ [.notReady] }

/-- The tuples that the reads resolve to; `recv` gives no source. -/
def TcpRead.item (socket : S) (buffer : BytesMut) (byteCount : ℕ) (_ : Unit) : S × BytesMut × ℕ :=
  (socket, buffer, byteCount)

def RecvFrom.item (socket : S) (buffer : BytesMut) (byteCount : ℕ) (remoteAddr : A) :
    S × BytesMut × ℕ × A :=
  (socket, buffer, byteCount, remoteAddr)

def TcpRead.poll : State S ι (S × BytesMut × ℕ) → Attempt ι Unit → State S ι (S × BytesMut × ℕ) :=
  ReadInPlace.poll TcpRead.item

def RecvFrom.poll :
    State S ι (S × BytesMut × ℕ × A) → Attempt ι A → State S ι (S × BytesMut × ℕ × A) :=
  ReadInPlace.poll RecvFrom.item

def read (socket : S) (buffer : BytesMut) : State S ι Item := ⟨.pending socket buffer none, [], 0⟩

def ReadState.forget : ReadState S ι → ReadBuffer.Epoll.ReadState
  | .pending _ buffer interest => .pending buffer interest.isSome
  | .none => .none

def Attempt.forget (a : Attempt ι A) : ReadBuffer.Epoll.Attempt A where
  fired := a.fired
  outcome := match a.outcome with
    | .received payload source => .received payload source
    | .wouldBlock added => .wouldBlock added.isOk
    | .failed _ => .failed

def machine (poll : State S ι Item → Attempt ι A → State S ι Item) :
    Machine (State S ι Item) (Attempt ι A) where
  init s := ∃ socket buffer, s = read socket buffer
  step s a := some (poll s a)

/-- The interest is found unfired, or the call would block and there is an interest to wait for. -/
def Suspends (s : State S ι Item) (a : Attempt ι A) : Prop :=
  match s.future with
  | .pending _ _ interest => ¬ a.receives interest ∨
      ∃ added, a.outcome = .wouldBlock added ∧ (interest.isSome = true ∨ added.isOk = true)
  | .none => False

def Transfers (payload : List UInt8) (source : A) (s : State S ι Item) (a : Attempt ι A) : Prop :=
  match s.future with
  | .pending _ _ interest => a.receives interest ∧ a.outcome = .received payload source
  | .none => False

/-- The future has not completed, and its socket and buffer are the ones it was made of. -/
def Keeps (socket : S) (b : BytesMut) (s : State S ι Item) : Prop :=
  ∃ interest, s.future = .pending socket b interest

/-- After any number of polls that are suspended, one that transfers resolves with what was
received in place, and later ones panic without another system call. -/
def ReadsInPlace (S ι : Type*) (item : S → BytesMut → ℕ → A → Item)
    (poll : State S ι Item → Attempt ι A → State S ι Item) : Prop :=
  ∀ (socket : S) (b : BytesMut) (blocked later : List (Attempt ι A)) (s : State S ι Item)
    (a : Attempt ι A) (payload : List UInt8) (source : A),
    (machine poll).Every Suspends (read socket b) blocked →
    (machine poll).exec (read socket b) blocked = some s →
    Transfers payload source s a → payload.length ≤ b.capacity →
    (machine poll).Throughout (Keeps socket b) (read socket b) blocked ∧
    ∃ b' t, (machine poll).exec (read socket b) (blocked ++ a :: later) = some t ∧
      t.polls = List.replicate blocked.length .notReady ++
        .ready (item socket b' payload.length source) :: List.replicate later.length .panics ∧
      t.receives = s.receives + 1 ∧ b'.len = max b.len payload.length ∧
      b'.contents = payload ++ b.contents.drop payload.length

variable {item : S → BytesMut → ℕ → A → Item} {socket : S} {b : BytesMut}
  {s t : State S ι Item} {a : Attempt ι A}

theorem len_grow {written : List UInt8} : (b.grow written).len = max b.len written.length := by
  unfold BytesMut.grow
  split
  · rename_i h
    exact (Nat.max_eq_right (Nat.le_of_lt h)).symm
  · rename_i h
    exact (Nat.max_eq_left (Nat.le_of_not_lt h)).symm

/-- What becomes of the buffer is what the comparison of the backends takes a poll to do. -/
theorem poll_refines : (poll item s a).future.forget =
    (ReadBuffer.Epoll.poll s.future.forget a.forget).1 := by
  obtain ⟨future, polls, receives⟩ := s
  obtain ⟨fired, outcome⟩ := a
  cases future with
  | none => rfl
  | pending socket buffer interest =>
    cases interest with
    | none =>
      cases outcome with
      | wouldBlock added => cases added <;> rfl
      | _ => rfl
    | some x =>
      cases fired with
      | false => rfl
      | true => cases outcome <;> rfl

/-- A suspended poll changes nothing but the interest. -/
theorem poll_of_suspends (hs : Keeps socket b s) (ha : Suspends s a) :
    Keeps socket b (poll item s a) ∧ (poll item s a).polls = s.polls ++ [.notReady] := by
  obtain ⟨interest, hs⟩ := hs
  simp only [Suspends, hs] at ha
  by_cases hreceives : a.receives interest
  · obtain ⟨added, houtcome, hadded⟩ := ha.resolve_left (not_not_intro hreceives)
    simp only [poll, hs, if_pos hreceives, houtcome]
    cases interest with
    | some x => exact ⟨⟨_, rfl⟩, rfl⟩
    | none =>
      cases added with
      | ok x => exact ⟨⟨_, rfl⟩, rfl⟩
      | error errno => simp [Except.isOk, Except.toBool] at hadded
  · have hpoll : poll item s a = { s with polls := s.polls ++ [.notReady] } := by
      simp only [poll, hs, if_neg hreceives]
    rw [hpoll]
    exact ⟨⟨interest, hs⟩, rfl⟩

theorem poll_of_transfers {payload : List UInt8} {source : A} (hs : Keeps socket b s)
    (ha : Transfers payload source s a) (hfits : payload.length ≤ b.capacity) :
    poll item s a =
      ⟨.none, s.polls ++ [.ready (item socket (b.grow payload) payload.length source)],
        s.receives + 1⟩ := by
  obtain ⟨interest, hs⟩ := hs
  simp only [Transfers, hs] at ha
  have hwritten : payload.take b.capacity = payload := List.take_of_length_le hfits
  simp only [poll, hs, if_pos ha.1, ha.2, hwritten]

theorem exec_of_suspends {as : List (Attempt ι A)} (hs : Keeps socket b s)
    (has : (machine (poll item)).Every Suspends s as)
    (hrun : (machine (poll item)).exec s as = some t) :
    (machine (poll item)).Throughout (Keeps socket b) s as ∧ Keeps socket b t ∧
      t.polls = s.polls ++ List.replicate as.length .notReady := by
  induction as generalizing s with
  | nil =>
    obtain rfl := Option.some.inj hrun
    exact ⟨hs, hs, by simp⟩
  | cons a as ih =>
    obtain ⟨hkeeps, hpolls⟩ : Keeps socket b (poll item s a) ∧ _ := poll_of_suspends hs has.1
    obtain ⟨hall, ht, htpolls⟩ := ih hkeeps (has.2 _ rfl) hrun
    refine ⟨⟨hs, fun u hu => Option.some.inj hu ▸ hall⟩, ht, ?_⟩
    rw [htpolls, hpolls, List.append_assoc, List.length_cons, List.replicate_succ,
      List.singleton_append]

/-- A completed read issues no system call. -/
theorem exec_of_completed {as : List (Attempt ι A)} (hs : s.future = .none) :
    (machine (poll item)).exec s as =
      some ⟨.none, s.polls ++ List.replicate as.length .panics, s.receives⟩ := by
  induction as generalizing s with
  | nil =>
    obtain ⟨future, polls, receives⟩ := s
    obtain rfl := hs
    simp [Machine.exec]
  | cons a as ih =>
    have hpoll : (machine (poll item)).step s a =
        some { s with polls := s.polls ++ [.panics] } := by
      simp only [machine, poll, hs]
    rw [Machine.exec, hpoll, Option.bind_some, ih (by exact hs), List.append_assoc,
      List.length_cons, List.replicate_succ, List.singleton_append]

theorem poll_readsInPlace : ReadsInPlace S ι item (poll item) := by
  intro socket b blocked later s a payload source hblocked hrun ha hfits
  obtain ⟨hall, hs, hpolls⟩ := exec_of_suspends ⟨none, rfl⟩ hblocked hrun
  have hstep : (machine (poll item)).step s a = some (poll item s a) := rfl
  have hrunAll : (machine (poll item)).exec (read socket b) (blocked ++ a :: later) =
      some ⟨.none, List.replicate blocked.length .notReady ++
        .ready (item socket (b.grow payload) payload.length source) ::
          List.replicate later.length .panics, s.receives + 1⟩ := by
    rw [Machine.exec_append, hrun, Option.bind_some, Machine.exec, hstep,
      poll_of_transfers hs ha hfits, Option.bind_some, exec_of_completed rfl, hpolls]
    simp [read]
  exact ⟨hall, _, _, hrunAll, rfl, rfl, len_grow, BytesMut.contents_grow⟩

/-- Both reads, for any number of attempts that give `WouldBlock` or find the interest unfired
before the transfer. -/
theorem reads_in_place :
    ReadsInPlace S ι TcpRead.item TcpRead.poll ∧
      ReadsInPlace S ι (RecvFrom.item (A := A)) RecvFrom.poll :=
  ⟨poll_readsInPlace, poll_readsInPlace⟩

/-- Two polls that are suspended and one that reads two bytes. -/
def readTwoBytes : List (Attempt Unit Unit) :=
  [⟨false, .wouldBlock (.ok ())⟩, ⟨false, .failed 104⟩, ⟨true, .received [8, 9] ()⟩]

/-- The bytes go into a buffer of three with room for four. -/
theorem reads_in_place_readTwoBytes :
    ∃ b t, (machine TcpRead.poll).exec (read () ⟨[1, 2, 3, 0], 3, false, by decide⟩)
        readTwoBytes = some t ∧ t.polls = [.notReady, .notReady, .ready ((), b, 2)] ∧
      t.receives = 2 ∧ b.contents = [8, 9, 3] := by
  have hread : ReadsInPlace Unit Unit TcpRead.item TcpRead.poll :=
    (reads_in_place : _ ∧ ReadsInPlace Unit Unit (RecvFrom.item (A := Unit)) RecvFrom.poll).1
  obtain ⟨-, b, t, hrun, hpolls, hreceives, -, hcontents⟩ :=
    hread () ⟨[1, 2, 3, 0], 3, false, by decide⟩ (readTwoBytes.take 2) []
      ⟨.pending () ⟨[1, 2, 3, 0], 3, false, by decide⟩ (some ()), [.notReady, .notReady], 1⟩
      ⟨true, .received [8, 9] ()⟩ [8, 9] ()
      (.cons (.inr ⟨.ok (), rfl, .inr rfl⟩) rfl <| .cons (.inl (by decide)) rfl trivial) rfl
      ⟨fun _ => rfl, rfl⟩ (by decide)
  exact ⟨b, t, hrun, hpolls, hreceives, hcontents⟩

end CompleteIo.ReadInPlace
