import Mathlib.Data.List.Perm.Basic

namespace CompleteIo

/-- A network that may reorder, lose and copy messages, but makes none up. -/
structure Network (M : Type*) where
  sent : List M
  copied : List M
  inFlight : List M
  delivered : List M
  lost : List M
  conserved : (delivered ++ lost ++ inFlight).Perm (sent ++ copied)
  genuine : copied ⊆ sent

namespace Network

variable {M : Type*}

inductive Event (M : Type*)
  | lose (m : M)
  | copy (m : M)

def empty : Network M := ⟨[], [], [], [], [], .nil, List.nil_subset _⟩

def send (x : Network M) (m : M) : Network M where
  sent := x.sent ++ [m]
  copied := x.copied
  inFlight := m :: x.inFlight
  delivered := x.delivered
  lost := x.lost
  conserved := by
    rw [List.append_assoc x.sent, List.singleton_append]
    exact (List.perm_middle).trans ((x.conserved.cons m).trans List.perm_middle.symm)
  genuine := List.subset_append_of_subset_left _ x.genuine

theorem mem_sent (x : Network M) {m : M} (h : m ∈ x.delivered ++ x.lost ++ x.inFlight) :
    m ∈ x.sent :=
  (List.mem_append.mp (x.conserved.subset h)).elim id fun hc => x.genuine hc

theorem delivered_subset (x : Network M) : x.delivered ⊆ x.sent :=
  fun _ hm => x.mem_sent (List.mem_append_left _ (List.mem_append_left _ hm))

variable [DecidableEq M]

def deliver (x : Network M) (m : M) : Option (Network M) :=
  if h : m ∈ x.inFlight then some
    { sent := x.sent
      copied := x.copied
      inFlight := x.inFlight.erase m
      delivered := x.delivered ++ [m]
      lost := x.lost
      conserved := by
        have hmove : (x.delivered ++ [m] ++ x.lost ++ x.inFlight.erase m).Perm
            (x.delivered ++ x.lost ++ (m :: x.inFlight.erase m)) := by
          simp only [List.append_assoc]
          exact (List.perm_append_comm_assoc [m] x.lost (x.inFlight.erase m)).append_left _
        exact hmove.trans (((List.perm_cons_erase h).symm.append_left _).trans x.conserved)
      genuine := x.genuine }
  else none

def event (x : Network M) : Event M → Option (Network M)
  | .lose m =>
    if h : m ∈ x.inFlight then some
      { sent := x.sent
        copied := x.copied
        inFlight := x.inFlight.erase m
        delivered := x.delivered
        lost := x.lost ++ [m]
        conserved := by
          have hmove : (x.delivered ++ (x.lost ++ [m]) ++ x.inFlight.erase m).Perm
              (x.delivered ++ x.lost ++ (m :: x.inFlight.erase m)) := by
            simp
          exact hmove.trans (((List.perm_cons_erase h).symm.append_left _).trans x.conserved)
        genuine := x.genuine }
    else none
  | .copy m =>
    if h : m ∈ x.inFlight then some
      { sent := x.sent
        copied := m :: x.copied
        inFlight := m :: x.inFlight
        delivered := x.delivered
        lost := x.lost
        conserved := (List.perm_middle).trans ((x.conserved.cons m).trans List.perm_middle.symm)
        genuine := List.cons_subset.mpr ⟨x.mem_sent (List.mem_append_right _ h), x.genuine⟩ }
    else none

/-- Without copies, no message is delivered more often than it was sent. -/
theorem count_delivered_le (x : Network M) (h : x.copied = []) (m : M) :
    x.delivered.count m ≤ x.sent.count m := by
  have hcount := x.conserved.count_eq m
  simp only [h, List.append_nil, List.count_append] at hcount
  omega

theorem deliver_eq_some {x y : Network M} {m : M} (h : x.deliver m = some y) :
    y.sent = x.sent ∧ y.delivered = x.delivered ++ [m] := by
  unfold deliver at h
  split at h
  · exact Option.some.inj h ▸ ⟨rfl, rfl⟩
  · cases h

theorem event_eq_some {x y : Network M} {e : Event M} (h : x.event e = some y) :
    y.sent = x.sent ∧ y.delivered = x.delivered := by
  cases e <;> simp only [event] at h <;> split at h
  · exact Option.some.inj h ▸ ⟨rfl, rfl⟩
  · cases h
  · exact Option.some.inj h ▸ ⟨rfl, rfl⟩
  · cases h

end Network

end CompleteIo
