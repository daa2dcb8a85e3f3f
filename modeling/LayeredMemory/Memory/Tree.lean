import LayeredMemory.Memory.Device

/-!
Memories as trees of layers. An overlay puts one memory on top of another: what the top holds hides what the
base holds at the same addresses, and stores reach the top only. The type parameter stands for further kinds
of layers.
-/

namespace LayeredMemory

inductive Memory (δ : Type)
  | sparse (layer : SparseLayer)
  | image (layer : ImageLayer)
  | overlay (base top : Memory δ)
  | device (layer : δ)

inductive Side
  | base
  | top
  deriving DecidableEq, Repr

namespace Memory

abbrev Loads := Nat → Width → Traced Fault (Option Expr)

def readPieces (load : Loads) : List (Interval Nat) → Traced Fault (Option (List Piece))
  | [] => return some []
  | range :: rest => do
    match ← load range.lo (← Address.widthOf (range.hi - range.lo)) with
    | none => return none
    | some e =>
      let pieces ← readPieces load rest
      return pieces.map ((range.lo, e) :: ·)

def readSplit (base top : Loads) (fromBase fromTop : IntervalSet Nat) (a : Nat) (w : Width) :
    Traced Fault (Option Expr) := do
  Traced.record (.splitLoad a fromBase.size fromTop.size)
  match ← readPieces base fromBase.intervals with
  | none => return none
  | some low =>
    match ← readPieces top fromTop.intervals with
    | none => return none
    | some high => compose a w (low.merge high Piece.startsFirst)

def readThrough (base top : Loads) (gaps : IntervalSet Nat) (a : Nat) (w : Width) :
    Traced Fault (Option Expr) := do
  if gaps.isEmpty then top a w
  else
    let whole ← Address.requested a w
    if gaps = whole then base a w
    else readSplit base top gaps (whole.difference gaps) a w

variable {δ : Type} [Device δ]

def missing : Memory δ → Nat → Width → Except Fault (IntervalSet Nat)
  | sparse m, a, w => m.missing a w
  | image m, a, w => m.missing a w
  | device d, a, w => Device.missing d a w
  | overlay base top, a, w => do
    let fromBase ← base.missing a w
    let fromTop ← top.missing a w
    return fromBase.intersect fromTop

def load : Memory δ → Nat → Width → Traced Fault (Option Expr)
  | sparse m, a, w => m.load a w
  | image m, a, w => m.load a w
  | device d, a, w => Device.load d a w
  | overlay base top, a, w => do
    let gaps ← top.missing a w
    readThrough base.load top.load gaps a w

def store : Memory δ → Nat → Expr → Width → Step (Memory δ) Fault Unit
  | sparse m, a, v, w => (m.store a v w).inside sparse
  | image m, a, v, w => (m.store a v w).inside image
  | device d, a, v, w => (Device.store d a v w).inside device
  | overlay base top, a, v, w => (top.store a v w).inside (overlay base)

def blocks : Memory δ → IntervalSet Nat
  | sparse m => m.blocks
  | image m => m.blockSet
  | device d => Device.blocks d
  | overlay base top => base.blocks.union top.blocks

def depth : Memory δ → Nat
  | sparse _ | image _ => 1
  | device d => Device.depth d
  | overlay base top => 1 + max base.depth top.depth

instance : Device (Memory δ) := ⟨load, store, missing, blocks, depth⟩

def layered {ε : Type} (base top : Memory δ) (diagnostics : Diagnostics) : Traced ε (Memory δ) :=
  let m := overlay base top
  if diagnostics.depthThreshold < m.depth then do
    Traced.record (.deepOverlay m.depth diagnostics.depthThreshold)
    return m
  else return m

def side? : Side → Memory δ → Option (Memory δ)
  | .base, overlay base _ => some base
  | .top, overlay _ top => some top
  | _, _ => none

def storeAt : List Side → Memory δ → Nat → Expr → Width → Option (Step (Memory δ) Fault Unit)
  | [], m, a, v, w => some (m.store a v w)
  | .base :: path, overlay base top, a, v, w =>
    (storeAt path base a v w).map (·.inside (overlay · top))
  | .top :: path, overlay base top, a, v, w =>
    (storeAt path top a v w).map (·.inside (overlay base))
  | _ :: _, _, _, _, _ => none

end Memory

end LayeredMemory
