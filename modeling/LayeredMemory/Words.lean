namespace LayeredMemory

-- Powers and comparisons of bytes are those of the core library, also where another library has its own.
attribute [instance (2000), default_instance 20000] instPowNat

attribute [instance (2000)] ByteArray.instDecidableEq

inductive Overflow
  | add
  | subtract
  | multiply
  deriving DecidableEq, Repr

def Overflow.message : Overflow → String
  | .add => "attempt to add with overflow"
  | .subtract => "attempt to subtract with overflow"
  | .multiply => "attempt to multiply with overflow"

class Distance (α : Type) [LE α] where
  distance (lo hi : α) : lo ≤ hi → Except Overflow α

instance : Distance Nat where
  distance lo hi _ := .ok (hi - lo)

instance : Distance Int64 where
  distance lo hi _ :=
    if hi.toInt - lo.toInt < 2 ^ 63 then .ok (hi - lo) else .error .subtract

/-- The remainder by `2 ^ n`, read off the binary digits. A number that is short enough is handed on, without
a mask of `n` bits. -/
def lowBits (n v : Nat) : Nat :=
  if v.log2 < n then v else v &&& ((1 <<< n) - 1)

theorem lowBits_eq_mod (n v : Nat) : lowBits n v = v % 2 ^ n := by
  unfold lowBits
  split
  · rename_i h
    by_cases hv : v = 0
    · simp [hv]
    · rw [Nat.mod_eq_of_lt ((Nat.log2_lt hv).1 h)]
  · rw [Nat.one_shiftLeft, Nat.and_two_pow_sub_one_eq_mod]

theorem lowBits_lt (n v : Nat) : lowBits n v < 2 ^ n := by
  rw [lowBits_eq_mod]
  exact Nat.mod_lt _ (Nat.two_pow_pos n)

@[ext] structure Width where
  bytes : Nat
  fits : bytes < 2 ^ 32 := by decide
  deriving DecidableEq

namespace Width

def zero : Width := ⟨0, by decide⟩
def w8 : Width := ⟨1, by decide⟩
def w16 : Width := ⟨2, by decide⟩
def w32 : Width := ⟨4, by decide⟩
def w64 : Width := ⟨8, by decide⟩

instance : Inhabited Width := ⟨zero⟩

instance : Ord Width := ⟨fun v w => compare v.bytes w.bytes⟩

def ofBytes? (n : Nat) : Option Width :=
  if h : n < 2 ^ 32 then some ⟨n, h⟩ else none

def bits (w : Width) : Nat := 8 * w.bytes

def isZero (w : Width) : Bool := w.bytes == 0

theorem isZero_of_bytes {w : Width} (h : w.bytes = 0) : w.isZero = true := beq_iff_eq.2 h

theorem not_isZero {w : Width} (h : 0 < w.bytes) : ¬ w.isZero = true := fun hz => Nat.ne_of_gt h (beq_iff_eq.1 hz)

def add (v w : Width) : Except Overflow Width :=
  if h : v.bytes + w.bytes < 2 ^ 32 then .ok ⟨v.bytes + w.bytes, h⟩ else .error .add

def sub (v w : Width) : Except Overflow Width :=
  if w.bytes ≤ v.bytes then .ok ⟨v.bytes - w.bytes, Nat.lt_of_le_of_lt (Nat.sub_le ..) v.fits⟩
  else .error .subtract

def text (w : Width) : String := toString w.bits

end Width

end LayeredMemory
