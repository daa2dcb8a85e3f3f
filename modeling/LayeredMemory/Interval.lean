import LayeredMemory.Words

namespace LayeredMemory

@[ext] structure Interval (α : Type) [LE α] where
  lo : α
  hi : α
  lo_le_hi : lo ≤ hi
  deriving DecidableEq

structure ReversedBounds (α : Type) where
  lo : α
  hi : α
  deriving DecidableEq, Repr

def ReversedBounds.message {α : Type} [ToString α] (r : ReversedBounds α) : String :=
  s!"begin is greater than end: {r.lo} > {r.hi}"

namespace Interval

variable {α : Type} [LE α] [LT α] [DecidableLE α] [DecidableLT α]

def ofBounds (lo hi : α) : Except (ReversedBounds α) (Interval α) :=
  if h : lo ≤ hi then .ok ⟨lo, hi, h⟩ else .error ⟨lo, hi⟩

instance : Membership α (Interval α) where
  mem i p := i.lo ≤ p ∧ p < i.hi

instance (i : Interval α) (p : α) : Decidable (p ∈ i) :=
  inferInstanceAs (Decidable (i.lo ≤ p ∧ p < i.hi))

def Nonempty (i : Interval α) : Prop := i.lo < i.hi

instance (i : Interval α) : Decidable i.Nonempty :=
  inferInstanceAs (Decidable (i.lo < i.hi))

def Overlaps (i j : Interval α) : Prop :=
  i.Nonempty ∧ j.Nonempty ∧ i.lo < j.hi ∧ j.lo < i.hi

instance (i j : Interval α) : Decidable (i.Overlaps j) :=
  inferInstanceAs (Decidable (_ ∧ _ ∧ _ ∧ _))

def length [Distance α] (i : Interval α) : Except Overflow α :=
  Distance.distance i.lo i.hi i.lo_le_hi

def text [ToString α] (i : Interval α) : String :=
  s!"[{i.lo}, {i.hi})"

end Interval

end LayeredMemory
