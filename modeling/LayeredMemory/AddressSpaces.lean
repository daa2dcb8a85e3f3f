import LayeredMemory.Memory.Tree
import Std.Data.TreeMap

namespace LayeredMemory

structure AddressSpaces (δ : Type) where
  bound : Std.TreeMap String (Memory δ) := ∅
  diagnostics : Diagnostics := {}

namespace AddressSpaces

variable {δ : Type}

def get? (s : AddressSpaces δ) (key : String) : Option (Memory δ) := s.bound[key]?

def insert (s : AddressSpaces δ) (key : String) (m : Memory δ) : AddressSpaces δ × Option (Memory δ) :=
  ({ s with bound := s.bound.insert key m }, s.get? key)

def remove (s : AddressSpaces δ) (key : String) : AddressSpaces δ × Option (Memory δ) :=
  ({ s with bound := s.bound.erase key }, s.get? key)

def keys (s : AddressSpaces δ) : List String := s.bound.keys

def size (s : AddressSpaces δ) : Nat := s.bound.size

def isEmpty (s : AddressSpaces δ) : Bool := s.bound.isEmpty

variable [Device δ]

def load (s : AddressSpaces δ) (key : String) (a : Nat) (w : Width) : Traced Fault (Option Expr) :=
  match s.get? key with
  | some m => m.load a w
  | none => return none

def missing (s : AddressSpaces δ) (key : String) (a : Nat) (w : Width) :
    Except Fault (IntervalSet Nat) :=
  match s.get? key with
  | some m => m.missing a w
  | none => Address.requested a w

def blocks (s : AddressSpaces δ) (key : String) : IntervalSet Nat :=
  match s.get? key with
  | some m => m.blocks
  | none => .empty

def modify? {ε α : Type} (s : AddressSpaces δ) (key : String)
    (change : Memory δ → Step (Memory δ) ε α) : Option (Step (AddressSpaces δ) ε α) :=
  (s.get? key).map fun m => (change m).inside fun m' => (s.insert key m').1

/-- An unknown key is bound first and stays bound if the store fails. -/
def store (s : AddressSpaces δ) (key : String) (a : Nat) (v : Expr) (w : Width) :
    Step (AddressSpaces δ) Fault Unit :=
  match s.get? key with
  | some m => (m.store a v w).inside fun m' => (s.insert key m').1
  | none =>
    let step := (Memory.sparse { diagnostics := s.diagnostics } : Memory δ).store a v w
    ⟨(s.insert key step.state).1, Traced.record (.createdSpace key) >>= fun _ => step.report⟩

end AddressSpaces

end LayeredMemory
