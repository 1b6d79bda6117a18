import Mathlib.Data.List.Infix
import CompleteIo.Lib.Machine

namespace CompleteIo

/-- A reliable FIFO channel. What was received is an initial part of what was sent. -/
structure Channel (D : Type*) where
  sent : List D
  received : List D
  inOrder : received <+: sent

namespace Channel

variable {D : Type*}

inductive Act (D : Type*)
  | send (d : D)
  | receive

def send (c : Channel D) (d : D) : Channel D where
  sent := c.sent ++ [d]
  received := c.received
  inOrder := c.inOrder.trans (List.prefix_append _ _)

/-- The oldest datum that was sent and not yet received. -/
def next? (c : Channel D) : Option D := c.sent[c.received.length]?

def receive (c : Channel D) : Option (Channel D) :=
  match h : c.next? with
  | some d => some
    { sent := c.sent
      received := c.received ++ [d]
      inOrder := by
        obtain ⟨rest, hrest⟩ := c.inOrder
        rw [next?, ← hrest, List.getElem?_append_right le_rfl, Nat.sub_self] at h
        obtain ⟨tail, rfl⟩ : ∃ tail, rest = d :: tail := by
          cases rest with
          | nil => simp at h
          | cons e tail => exact ⟨tail, by simpa using h⟩
        exact ⟨tail, by simpa using hrest⟩ }
  | none => none

def sendAll (c : Channel D) (ds : List D) : Channel D where
  sent := c.sent ++ ds
  received := c.received
  inOrder := c.inOrder.trans (List.prefix_append _ _)

/-- Receives the data given, if they are the next ones. -/
def receiveAll [DecidableEq D] (c : Channel D) (ds : List D) : Option (Channel D) :=
  if h : c.received ++ ds <+: c.sent then some ⟨c.sent, c.received ++ ds, h⟩ else none

def machine (D : Type*) : Machine (Channel D) (Act D) where
  init c := c.sent = [] ∧ c.received = []
  step c
    | .send d => some (c.send d)
    | .receive => c.receive

def empty : Channel D := ⟨[], [], List.nil_prefix⟩

theorem empty_init : (machine D).init empty := ⟨rfl, rfl⟩

/-- The receiver gets exactly the datum that follows the ones it has. -/
theorem receive_of_next {c : Channel D} {d : D} {rest : List D}
    (h : c.sent = c.received ++ d :: rest) :
    ∃ y, c.receive = some y ∧ y.sent = c.sent ∧ y.received = c.received ++ [d] := by
  have hnext : c.next? = some d := by
    rw [next?, h, List.getElem?_append_right le_rfl, Nat.sub_self, List.getElem?_cons_zero]
  unfold receive
  split
  · rename_i e he
    obtain rfl : e = d := by simpa [hnext] using he.symm
    exact ⟨_, rfl, rfl, rfl⟩
  · rename_i he
    simp [hnext] at he

theorem receiveAll_eq_some [DecidableEq D] {c x : Channel D} {ds : List D}
    (h : c.receiveAll ds = some x) : x.sent = c.sent ∧ x.received = c.received ++ ds := by
  unfold receiveAll at h
  split at h
  · exact Option.some.inj h ▸ ⟨rfl, rfl⟩
  · cases h

end Channel

end CompleteIo
