import LayeredMemory.Expr.Fold
import LayeredMemory.Layer.Block

namespace LayeredMemory

structure ImageLayer where
  blocks : List Block := []
  diagnostics : Diagnostics := {}
  deriving DecidableEq

namespace ImageLayer

def ofBlocks (given : List Block) (diagnostics : Diagnostics) : Traced Refusal ImageLayer :=
  let filled := given.filter (fun b => !b.bytes.isEmpty)
  match filled.find? (fun b => decide (Address.last < b.stop)) with
  | some b => Traced.fail (.addressOverflow b.start b.bytes.size)
  | none => do
    let blocks ← Block.coalesce (filled.mergeSort Block.startsFirst)
    Traced.record (.imageCreated blocks.length)
    return ⟨blocks, diagnostics⟩

def unseparated? : List Block → Option Breach
  | b :: next :: rest =>
    if b.stop < next.start then unseparated? (next :: rest)
    else some (.unseparatedBlock b.stop next.start)
  | _ => none

def check (m : ImageLayer) : Except Fault Unit :=
  match m.blocks.find? (fun b => b.bytes.isEmpty) with
  | some b => .error (.breach (.emptyBlock b.start))
  | none =>
    match unseparated? m.blocks with
    | some b => .error (.breach b)
    | none => .ok ()

def load (m : ImageLayer) (a : Nat) (w : Width) : Traced Fault (Option Expr) :=
  if w.isZero then return none
  else do
    let stop ← Address.rangeEnd a w
    match Block.find? m.blocks a with
    | none => return none
    | some b =>
      if b.stop < stop then
        Traced.record (.imageEnd a stop b.stop)
        return none
      else return some (.const (b.read a w))

/-- The blocks are taken out while they are joined, and none come back if they overlap. -/
def overwriting (a : Nat) (c : Constant) (w : Width) : Change (List Block) Failure Unit := do
  let stop ← Address.rangeEnd a w
  Change.record (.imageStore a stop)
  modify fun blocks => Block.write blocks a (c.resize w).bytes
  let written ← getModify fun _ => []
  let joined ← (Block.coalesce written).mapError (fun r => Failure.fault (.breach (.overlapAfterStore r)))
  set joined

def overwritten (m : ImageLayer) (a : Nat) (c : Constant) (w : Width) : Step ImageLayer Failure Unit :=
  (overwriting a c w m.blocks).inside fun blocks => { m with blocks }

def examine (m : ImageLayer) : Traced Failure Unit :=
  if m.diagnostics.checksInvariants then liftM m.check else return ()

def tryStore (m : ImageLayer) (a : Nat) (v : Expr) (w : Width) : Step ImageLayer Failure Unit :=
  if w.isZero then .stay m (Traced.record (.emptyImageStore a))
  else
    match v.fold.asConst? with
    | none => .stay m (Traced.fail (.refusal (.notConstant v.text)))
    | some c => (m.overwritten a c w).examined examine

def store (m : ImageLayer) (a : Nat) (v : Expr) (w : Width) : Step ImageLayer Fault Unit :=
  (m.tryStore a v w).mapError Failure.asFault

def blockSet (m : ImageLayer) : IntervalSet Nat := .ofList (m.blocks.map Block.interval)

def missing (m : ImageLayer) (a : Nat) (w : Width) : Except Fault (IntervalSet Nat) := do
  return (← Address.requested a w).difference m.blockSet

end ImageLayer

end LayeredMemory
