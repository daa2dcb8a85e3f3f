import LayeredMemory.Memory.Device

namespace LayeredMemory

namespace Flatten

def chunkSize : Nat := 0x1000

def firstChunk (start stop : Nat) : Nat × Width :=
  (start, ⟨min (stop - start) chunkSize, Nat.lt_of_le_of_lt (Nat.min_le_right ..) (by decide)⟩)

theorem firstChunk_pos {start stop : Nat} (h : start < stop) : 0 < (firstChunk start stop).2.bytes := by
  change 0 < min (stop - start) 0x1000
  omega

def chunks (start stop : Nat) : List (Nat × Width) :=
  if start < stop then
    let chunk := firstChunk start stop
    chunk :: chunks (start + chunk.2.bytes) stop
  else []
termination_by stop - start
decreasing_by
  have := firstChunk_pos ‹start < stop›
  omega

def copyChunk {μ : Type} [Device μ] (m : μ) (flat : SparseLayer) (chunk : Nat × Width) :
    Traced Failure SparseLayer := do
  match ← (Device.load m chunk.1 chunk.2 : Traced Fault (Option Expr)) with
  | none => Traced.fail (.refusal (.incompleteLoad chunk.1 chunk.2))
  | some e => (flat.store chunk.1 e.fold chunk.2).result

def copyRange {μ : Type} [Device μ] (m : μ) (flat : SparseLayer) (start stop : Nat) :
    Traced Failure SparseLayer :=
  if start < stop then do
    let chunk := firstChunk start stop
    let flat ← copyChunk m flat chunk
    copyRange m flat (start + chunk.2.bytes) stop
  else return flat
termination_by stop - start
decreasing_by
  have := firstChunk_pos ‹start < stop›
  omega

theorem copyRange_eq_foldlM {μ : Type} [Device μ] (m : μ) (flat : SparseLayer) (start stop : Nat) :
    copyRange m flat start stop = (chunks start stop).foldlM (copyChunk m) flat := by
  fun_induction chunks start stop generalizing flat with
  | case1 start h chunk ih =>
    rw [copyRange, if_pos h, List.foldlM_cons]
    exact bind_congr fun flat => ih flat
  | case2 start h => rw [copyRange, if_neg h, List.foldlM_nil]

end Flatten

def flatten {μ : Type} [Device μ] (m : μ) : Traced Failure SparseLayer := do
  let blocks := Device.blocks m
  Traced.record (.flattening blocks.size (Device.depth m))
  blocks.intervals.foldlM (fun flat block => Flatten.copyRange m flat block.lo block.hi) {}

end LayeredMemory
