import Mathlib.Data.BitVec
import Mathlib.Data.List.Basic

namespace CompleteIo

variable {w : ℕ} {all : BitVec w}

/-- A set of flags, as the bits of a word that are all among `all`. -/
structure Flags (all : BitVec w) where
  bits : BitVec w
  valid : bits &&& all = bits
  deriving DecidableEq

namespace Flags

variable {a b c : Flags all} {i : ℕ}

def Has (a : Flags all) (i : ℕ) : Prop := a.bits.getLsbD i = true

/-- Drops the bits that are no flags. -/
def fromBitsTruncate (bits : BitVec w) : Flags all :=
  ⟨bits &&& all, by rw [BitVec.and_assoc, BitVec.and_self]⟩

def empty : Flags all := ⟨0#w, by simp⟩

def union (a b : Flags all) : Flags all :=
  ⟨a.bits ||| b.bits, by rw [BitVec.and_comm, BitVec.and_or_distrib_left,
    BitVec.and_comm all, BitVec.and_comm all, a.valid, b.valid]⟩

instance : EmptyCollection (Flags all) := ⟨empty⟩

instance : Union (Flags all) := ⟨union⟩

def contains (a b : Flags all) : Bool := a.bits &&& b.bits = b.bits

def intersects (a b : Flags all) : Bool := a.bits &&& b.bits ≠ 0#w

theorem ext_has (h : ∀ i, a.Has i ↔ b.Has i) : a = b := by
  obtain ⟨x, _⟩ := a
  obtain ⟨y, _⟩ := b
  obtain rfl : x = y := BitVec.eq_of_getLsbD_eq fun i _ => Bool.eq_iff_iff.mpr (h i)
  rfl

@[simp] theorem has_empty : ¬ (∅ : Flags all).Has i := by
  change ¬ (0#w).getLsbD i = true
  simp

@[simp] theorem has_union : (a ∪ b).Has i ↔ a.Has i ∨ b.Has i := by
  change (a.bits ||| b.bits).getLsbD i = true ↔ _
  simp [Has]

theorem contains_iff : a.contains b = true ↔ ∀ i, b.Has i → a.Has i := by
  simp only [contains, decide_eq_true_eq, Has]
  constructor
  · intro h i hi
    rw [← h, BitVec.getLsbD_and, Bool.and_eq_true] at hi
    exact hi.1
  · intro h
    apply BitVec.eq_of_getLsbD_eq
    intro i _
    rw [BitVec.getLsbD_and, Bool.and_eq_right_iff_imp]
    exact h i

theorem ne_empty_iff : a ≠ ∅ ↔ ∃ i, a.Has i := by
  constructor
  · intro h
    by_contra hn
    exact h (ext_has fun i => ⟨fun hi => absurd ⟨i, hi⟩ hn, fun hi => absurd hi has_empty⟩)
  · rintro ⟨i, hi⟩ rfl
    exact has_empty hi

theorem intersects_iff : a.intersects b = true ↔ ∃ i, a.Has i ∧ b.Has i := by
  simp only [intersects, decide_eq_true_eq, Has, ne_eq]
  constructor
  · intro h
    by_contra hn
    apply h
    apply BitVec.eq_of_getLsbD_eq
    intro i _
    rw [BitVec.getLsbD_and, BitVec.getLsbD_zero, Bool.and_eq_false_iff]
    by_contra hi
    simp only [not_or, Bool.not_eq_false] at hi
    exact hn ⟨i, hi⟩
  · rintro ⟨i, ha, hb⟩ h
    have := congrArg (fun x => BitVec.getLsbD x i) h
    simp [ha, hb] at this

theorem contains_trans (hab : a.contains b = true) (hbc : b.contains c = true) :
    a.contains c = true := by
  rw [contains_iff] at *
  exact fun i hi => hab i (hbc i hi)

@[simp] theorem contains_self : a.contains a = true := contains_iff.mpr fun _ => id

@[simp] theorem contains_empty : a.contains ∅ = true :=
  contains_iff.mpr fun _ hi => absurd hi has_empty

theorem union_eq_left : a ∪ b = a ↔ a.contains b = true := by
  rw [contains_iff]
  constructor
  · intro h i hi
    rw [← h, has_union]
    exact .inr hi
  · intro h
    apply ext_has
    intro i
    rw [has_union, or_iff_left_of_imp (h i)]

theorem intersects_of_contains (hne : b ≠ ∅) (h : a.contains b = true) :
    a.intersects b = true := by
  obtain ⟨i, hi⟩ := ne_empty_iff.mp hne
  exact intersects_iff.mpr ⟨i, contains_iff.mp h i hi, hi⟩

variable {α : Type*} {f : α → Flags all} {xs ys : List α}

/-- The union over a list, as a fold computes it. -/
def unionOver (f : α → Flags all) (xs : List α) : Flags all := xs.foldl (fun m x => m ∪ f x) ∅

@[simp] theorem unionOver_nil : unionOver f [] = ∅ := rfl

@[simp] theorem unionOver_concat {x : α} : unionOver f (xs ++ [x]) = unionOver f xs ∪ f x := by
  simp [unionOver]

theorem has_unionOver : (unionOver f xs).Has i ↔ ∃ x ∈ xs, (f x).Has i := by
  induction xs using List.reverseRecOn with
  | nil => simp
  | append_singleton xs x ih => simp [ih, or_and_right, exists_or]

end Flags

end CompleteIo
