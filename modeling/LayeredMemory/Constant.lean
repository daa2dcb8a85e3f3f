import LayeredMemory.LittleEndian
import LayeredMemory.Operator
import LayeredMemory.Text
import LayeredMemory.Words

namespace LayeredMemory

@[ext] structure Constant where
  width : Width
  value : Nat
  fits : value < 2 ^ width.bits
  deriving DecidableEq

namespace Constant

def ofNat (w : Width) (v : Nat) : Constant := ⟨w, lowBits w.bits v, lowBits_lt _ _⟩

def zero (w : Width) : Constant := ⟨w, 0, Nat.two_pow_pos _⟩

def ofBytes? (bytes : ByteArray) : Option Constant :=
  (Width.ofBytes? bytes.size).map fun w => ofNat w (LittleEndian.toNat bytes)

def fit (w : Width) (bytes : ByteArray) : Constant := ofNat w (LittleEndian.toNat bytes)

def bytes (c : Constant) : ByteArray := LittleEndian.ofNat c.width.bytes c.value

def isZero (c : Constant) : Bool := c.value == 0

def toWord? (c : Constant) : Option Nat := if c.value < 2 ^ 64 then some c.value else none

def resize (c : Constant) (w : Width) : Constant := ofNat w c.value

@[simp] theorem width_ofNat (w : Width) (v : Nat) : (ofNat w v).width = w := rfl

theorem value_ofNat (w : Width) (v : Nat) : (ofNat w v).value = v % 2 ^ w.bits := lowBits_eq_mod _ _

@[simp] theorem width_resize (c : Constant) (w : Width) : (c.resize w).width = w := rfl

theorem value_resize (c : Constant) (w : Width) : (c.resize w).value = c.value % 2 ^ w.bits :=
  lowBits_eq_mod _ _

@[simp] theorem size_bytes (c : Constant) : c.bytes.size = c.width.bytes := LittleEndian.size_ofNat _ _

theorem value_bytes (c : Constant) : LittleEndian.toNat c.bytes = c.value := by
  rw [LittleEndian.toNat_eq, bytes, LittleEndian.toList_ofNat, LittleEndian.value_digits]
  exact Nat.mod_eq_of_lt c.fits

def unary (op : UnaryOp) (c : Constant) (w : Width) : Constant :=
  let x := (c.resize w).value
  ofNat w <| match op with
    | .not => 1 <<< w.bits - 1 - x
    | .neg => 1 <<< w.bits - x

/-- The right operand of a shift is a count of bits and is not brought to the width of the result. -/
def binary (op : BinaryOp) (a b : Constant) (w : Width) : Constant :=
  let x := (a.resize w).value
  let y := (b.resize w).value
  ofNat w <| match op with
    | .add => x + y
    | .sub => if y ≤ x then x - y else 1 <<< w.bits - (y - x)
    | .and => x &&& y
    | .or => x ||| y
    | .xor => x ^^^ y
    | .shl => if b.value < w.bits then x <<< b.value else 0
    | .shr => if b.value < w.bits then x >>> b.value else 0

def text (c : Constant) : String :=
  let digits := if c.width.isZero then "0" else Text.hexBytes c.bytes.toList.reverse
  s!"0x{digits}:{c.width.text}"

end Constant

end LayeredMemory
