import Mathlib.Data.Option.Basic

namespace CompleteIo

variable {α : Type*}

/-- A value that is borrowed dynamically; `borrowed` tells if a `RefMut` is alive. -/
structure RefCell (α : Type*) where
  value : α
  borrowed : Bool
  deriving DecidableEq

namespace RefCell

def new (a : α) : RefCell α := ⟨a, false⟩

/-- None where it panics, since the value is already borrowed. -/
def borrowMut (c : RefCell α) : Option (RefCell α) :=
  if c.borrowed then none else some { c with borrowed := true }

def modify (f : α → α) (c : RefCell α) : RefCell α := { c with value := f c.value }

def release (c : RefCell α) : RefCell α := { c with borrowed := false }

/-- A borrow for one statement. -/
def update (f : α → α) (c : RefCell α) : Option (RefCell α) :=
  c.borrowMut.map fun c => (c.modify f).release

variable {c d : RefCell α} {f : α → α}

theorem borrowMut_of_not_borrowed (h : c.borrowed = false) :
    c.borrowMut = some { c with borrowed := true } := by simp [borrowMut, h]

theorem update_eq_none_iff : c.update f = none ↔ c.borrowed = true := by
  simp [update, borrowMut]

theorem update_of_not_borrowed (h : c.borrowed = false) : c.update f = some (c.modify f) := by
  obtain ⟨value, borrowed⟩ := c
  obtain rfl : borrowed = false := h
  rfl

end RefCell

end CompleteIo
