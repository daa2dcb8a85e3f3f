import LayeredMemory.IntervalSet.Algebra
import LayeredMemory.Text

/-!
The ways in which an operation ends without a result. A `Refusal` is an answer: the caller handed in
something that cannot be accepted, and everything else goes on. A `Fault` aborts the operation: a range runs
past the address space, a store has nowhere to go, or an internal promise is broken.
-/

namespace LayeredMemory

open Text (hexNumber)

inductive Refusal
  | overlappingBlocks (stop start : Nat)
  | addressOverflow (start size : Nat)
  | notConstant (shown : String)
  | incompleteLoad (address : Nat) (width : Width)
  deriving DecidableEq

def Refusal.message : Refusal → String
  | .overlappingBlocks stop start =>
    s!"Blocks overlap: block ending at {hexNumber stop} overlaps block starting at {hexNumber start}"
  | .addressOverflow start size =>
    s!"Block of {size} bytes at {hexNumber start} runs past the end of the address space"
  | .notConstant shown => s!"Only constant values can be stored in a bytes memory - {shown}"
  | .incompleteLoad address width => s!"Could not load {width.text} bits at {hexNumber address}"

inductive Breach
  | emptyEntry (start : Nat)
  | overlappingEntry (start lastStop : Nat)
  | emptyBlock (start : Nat)
  | unseparatedBlock (stop start : Nat)
  | overlapAfterStore (cause : Refusal)
  deriving DecidableEq

def Breach.message : Breach → String
  | .emptyEntry start => s!"empty entry at {hexNumber start}"
  | .overlappingEntry start lastStop =>
    s!"entry at {hexNumber start} overlaps the previous entry ending at {hexNumber lastStop}"
  | .emptyBlock start => s!"empty block at {hexNumber start}"
  | .unseparatedBlock stop start =>
    s!"block ending at {hexNumber stop} is not separated from block at {hexNumber start}"
  | .overlapAfterStore cause => s!"store left overlapping blocks: {cause.message}"

inductive Fault
  | overflow (cause : Overflow)
  | rangeOverflow (address : Nat) (width : Width)
  | rangeTooWide (size : Nat)
  | shortSlice (width length : Width)
  | emptySlice (lo hi : Width)
  /-- A store was refused where nobody takes the refusal. -/
  | refusedStore (cause : Refusal)
  | breach (cause : Breach)
  deriving DecidableEq

def Fault.message : Fault → String
  | .overflow cause => cause.message
  | .rangeOverflow address width => s!"address range overflow: {hexNumber address} + {width.bytes} bytes"
  | .rangeTooWide size => s!"range of {size} bytes exceeds the maximum width"
  | .shortSlice width length => s!"window is not long enough: {width.bytes} < {length.bytes}"
  | .emptySlice lo hi => s!"empty window: {lo.bytes} >= {hi.bytes}"
  | .refusedStore cause => s!"bytes memory accepts only constants: {cause.message}"
  | .breach cause => cause.message

inductive Failure
  | refusal (cause : Refusal)
  | fault (cause : Fault)
  deriving DecidableEq

def Failure.message : Failure → String
  | .refusal cause => cause.message
  | .fault cause => cause.message

def Failure.asFault : Failure → Fault
  | .refusal cause => .refusedStore cause
  | .fault cause => cause

namespace Address

/-- The end of the address space: the last address, and the largest end of a range. -/
def last : Nat := 2 ^ 64 - 1

def rangeEnd (a : Nat) (w : Width) : Except Fault Nat :=
  if a + w.bytes ≤ last then .ok (a + w.bytes) else .error (.rangeOverflow a w)

def range (a : Nat) (w : Width) : Interval Nat := ⟨a, a + w.bytes, Nat.le_add_right _ _⟩

def requested (a : Nat) (w : Width) : Except Fault (IntervalSet Nat) := do
  let _ ← rangeEnd a w
  return .ofInterval (range a w)

def widthOf (size : Nat) : Except Fault Width :=
  match Width.ofBytes? size with
  | some w => .ok w
  | none => .error (.rangeTooWide size)

end Address

end LayeredMemory
