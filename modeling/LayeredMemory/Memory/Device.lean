import LayeredMemory.Layer.Image
import LayeredMemory.Layer.Sparse

namespace LayeredMemory

class Device (μ : Type) where
  load : μ → Nat → Width → Traced Fault (Option Expr)
  store : μ → Nat → Expr → Width → Step μ Fault Unit
  missing : μ → Nat → Width → Except Fault (IntervalSet Nat)
  blocks : μ → IntervalSet Nat
  depth : μ → Nat

instance : Device SparseLayer where
  load := SparseLayer.load
  store := SparseLayer.store
  missing := SparseLayer.missing
  blocks := SparseLayer.blocks
  depth _ := 1

instance : Device ImageLayer where
  load := ImageLayer.load
  store := ImageLayer.store
  missing := ImageLayer.missing
  blocks := ImageLayer.blockSet
  depth _ := 1

instance : Device Empty where
  load := nofun
  store := nofun
  missing := nofun
  blocks := nofun
  depth := nofun

end LayeredMemory
