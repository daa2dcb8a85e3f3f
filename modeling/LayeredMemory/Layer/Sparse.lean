import LayeredMemory.Expr.Slice
import LayeredMemory.Report.Traced

/-!
The sparse layer: which expression was stored last at each address. Entries are kept by ascending address
and never overlap; a store cuts what it overlaps and keeps the uncovered parts as slices of the old values.
-/

namespace LayeredMemory

structure Entry where
  start : Nat
  slice : Slice
  deriving DecidableEq

namespace Entry

def stop (e : Entry) : Nat := e.start + e.slice.width.bytes

def interval (e : Entry) : Interval Nat := ⟨e.start, e.stop, Nat.le_add_right _ _⟩

def upTo (a : Nat) (e : Entry) : Except Fault Entry := do
  return ⟨e.start, ← e.slice.low (← Address.widthOf (a - e.start))⟩

def onward (a : Nat) (e : Entry) : Except Fault Entry := do
  return ⟨a, ← e.slice.high (← Address.widthOf (e.stop - a))⟩

def within (start stop : Nat) (e : Entry) : Except Fault Entry := do
  let e ← if e.start < start then e.onward start else pure e
  if stop < e.stop then e.upTo stop else pure e

def piece (start stop : Nat) (e : Entry) : Except Fault Piece := do
  let e ← e.within start stop
  return (e.start, ← e.slice.expr)

end Entry

structure SparseLayer where
  entries : List Entry := []
  diagnostics : Diagnostics := {}
  deriving DecidableEq

namespace SparseLayer

def size (m : SparseLayer) : Nat := m.entries.length

def isEmpty (m : SparseLayer) : Bool := m.entries.isEmpty

def clear (m : SparseLayer) : SparseLayer := { m with entries := [] }

def breach? (lastStop : Option Nat) : List Entry → Option Breach
  | [] => none
  | e :: rest =>
    if e.slice.width.isZero then some (.emptyEntry e.start)
    else match lastStop with
      | some stop =>
        if e.start < stop then some (.overlappingEntry e.start stop) else breach? (some e.stop) rest
      | none => breach? (some e.stop) rest

def check (m : SparseLayer) : Except Fault Unit :=
  match breach? none m.entries with
  | some b => .error (.breach b)
  | none => .ok ()

def descend (stop : Nat) (down : List Entry) : List Entry → List Entry × List Entry
  | [] => (down, [])
  | e :: rest => if e.start < stop then descend stop (e :: down) rest else (down, e :: rest)

theorem descend_eq (stop : Nat) (down entries : List Entry) :
    descend stop down entries =
      ((entries.takeWhile (fun e => decide (e.start < stop))).reverse ++ down,
        entries.dropWhile (fun e => decide (e.start < stop))) := by
  induction entries generalizing down with
  | nil => rfl
  | cons e rest ih =>
    rw [descend]
    by_cases h : e.start < stop
    · simp [ih, h]
    · simp [h]

/-- The entries in the way of a range. Going down from its end, the first entry that ends at or before its start hides
no further one, for entries do not overlap. -/
def scan (entries : List Entry) (start stop : Nat) : List Entry :=
  ((descend stop [] entries).1.takeWhile (fun e => decide (start < e.stop))).reverse

def overlapping (m : SparseLayer) (start stop : Nat) : List Entry := scan m.entries start stop

def replaceAt (start : Nat) (new entries : List Entry) : List Entry :=
  let (down, rest) := descend start [] entries
  down.reverseAux (new ++ rest.dropWhile (fun e => e.start == start))

def coveredTo (a : Nat) : List Entry → Nat
  | [] => a
  | e :: rest => if a < e.start then a else coveredTo e.stop rest

def assemble (found : List Entry) (a stop : Nat) (w : Width) : Except Fault (Option Expr) := do
  let pieces ← found.mapM (Entry.piece a stop)
  compose a w pieces

def load (m : SparseLayer) (a : Nat) (w : Width) : Traced Fault (Option Expr) :=
  if w.isZero then return none
  else do
    let stop ← Address.rangeEnd a w
    let found := m.overlapping a stop
    let covered := coveredTo a found
    if covered < stop then
      Traced.record (.sparseGap a stop covered)
      return none
    else
      Traced.record (.sparseLoad a stop found.length)
      assemble found a stop w

def keepBelow (start : Nat) (e : Entry) : Change (List Entry) Fault Unit :=
  if e.start < start then do
    Change.record (.keptPart e.start start e.start)
    let part ← e.upTo start
    modify (replaceAt part.start [part])
  else return ()

def keepAbove (stop : Nat) (e : Entry) : Change (List Entry) Fault Unit :=
  if stop < e.stop then do
    Change.record (.keptPart stop e.stop e.start)
    let part ← e.onward stop
    modify (replaceAt part.start [part])
  else return ()

def cut (a stop : Nat) (e : Entry) : Change (List Entry) Fault Unit := do
  modify (replaceAt e.start [])
  keepBelow a e
  keepAbove stop e

def overwriting (a : Nat) (v : Expr) (w : Width) : Change (List Entry) Fault Unit := do
  let stop ← Address.rangeEnd a w
  let hit := scan (← get) a stop
  Change.record (.sparseStore a stop hit.length)
  hit.forM (cut a stop)
  modify (replaceAt a [⟨a, .full v w⟩])

def overwritten (m : SparseLayer) (a : Nat) (v : Expr) (w : Width) : Step SparseLayer Fault Unit :=
  (overwriting a v w m.entries).inside fun entries => { m with entries }

def examine (m : SparseLayer) : Traced Fault Unit :=
  if m.diagnostics.checksInvariants then Traced.ofExcept m.check else return ()

def store (m : SparseLayer) (a : Nat) (v : Expr) (w : Width) : Step SparseLayer Fault Unit :=
  if w.isZero then .stay m (Traced.record (.emptySparseStore a))
  else (m.overwritten a v w).examined examine

def missing (m : SparseLayer) (a : Nat) (w : Width) : Except Fault (IntervalSet Nat) := do
  let stop ← Address.rangeEnd a w
  let present := IntervalSet.ofList ((m.overlapping a stop).map Entry.interval)
  return (← Address.requested a w).difference present

def blocks (m : SparseLayer) : IntervalSet Nat :=
  .ofList (m.entries.map Entry.interval)

end SparseLayer

end LayeredMemory
