import Mathlib.Data.Nat.Basic

namespace CompleteIo

variable {α : Type*}

/-- An allocation with a strong and a weak count: the strong references own the value and share
one of the weak references, which own the memory. -/
structure ArcCell (α : Type*) where
  strong : ℕ
  weak : ℕ
  -- None once it was dropped or moved out.
  value : Option α
  frees : ℕ
  deriving DecidableEq

namespace ArcCell

def new (a : α) : ArcCell α := ⟨1, 1, some a, 0⟩

def modify (f : α → α) (c : ArcCell α) : ArcCell α := { c with value := c.value.map f }

def downgrade (c : ArcCell α) : ArcCell α := { c with weak := c.weak + 1 }

/-- The last weak reference frees the memory. -/
def dropWeak (c : ArcCell α) : ArcCell α :=
  { c with weak := c.weak - 1, frees := if c.weak = 1 then c.frees + 1 else c.frees }

/-- The strong references are gone, and with them the value and the weak reference they share. -/
def takeValue (c : ArcCell α) : ArcCell α := { c with strong := 0, value := none }.dropWeak

/-- The value, if there is but one strong reference, which is given up for it. -/
def tryUnwrap (c : ArcCell α) : Option (α × ArcCell α) :=
  if c.strong = 1 then c.value.map fun a => (a, c.takeValue) else none

variable {c : ArcCell α} {a : α} {f : α → α}

theorem modify_new : (new a).modify f = new (f a) := rfl

theorem modify_downgrade : c.downgrade.modify f = (c.modify f).downgrade := rfl

theorem dropWeak_downgrade (h : 0 < c.weak) : c.downgrade.dropWeak = c := by
  simp [downgrade, dropWeak, Nat.pos_iff_ne_zero.mp h]

theorem dropWeak_downgrade_new : (new a).downgrade.dropWeak = new a :=
  dropWeak_downgrade Nat.one_pos

/-- The memory is freed with the value that is moved out, if no other reference is left. -/
theorem tryUnwrap_new : (new a).tryUnwrap = some (a, ⟨0, 0, none, 1⟩) := rfl

end ArcCell

end CompleteIo
