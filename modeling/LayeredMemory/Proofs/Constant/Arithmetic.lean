import LayeredMemory.Proofs.Bytes

namespace LayeredMemory

namespace LittleEndian

variable {bytes xs ys : List UInt8} {n : Nat}

def resized (n : Nat) (bytes : List UInt8) : List UInt8 :=
  bytes.take n ++ List.replicate (n - bytes.length) 0

def complement (bytes : List UInt8) : List UInt8 := bytes.map (~~~ ·)

def addCarry (carry : UInt16) : List UInt8 → List UInt8 → List UInt8
  | x :: xs, y :: ys =>
    let sum := x.toUInt16 + y.toUInt16 + carry
    sum.toUInt8 :: addCarry (sum >>> 8) xs ys
  | _, _ => []

def word? (bytes : List UInt8) : Option Nat :=
  if (bytes.drop 8).any (· != 0) then none else some (value (bytes.take 8))

@[simp] theorem length_resized : (resized n bytes).length = n := by
  rw [resized, List.length_append, List.length_take, List.length_replicate]
  omega

@[simp] theorem length_complement : (complement bytes).length = bytes.length := List.length_map _

theorem length_addCarry {carry : UInt16} (h : xs.length = ys.length) : (addCarry carry xs ys).length = xs.length := by
  induction xs generalizing ys carry with
  | nil => rfl
  | cons x xs ih =>
    cases ys with
    | nil => cases h
    | cons y ys => rw [addCarry, List.length_cons, ih (Nat.succ.inj h), List.length_cons]

theorem value_eq_zero : value bytes = 0 ↔ ∀ b ∈ bytes, b = 0 := by
  induction bytes with
  | nil => simp [value]
  | cons b bytes ih =>
    rw [List.forall_mem_cons, ← ih, value, ← UInt8.toNat_inj, UInt8.toNat_zero]
    omega

theorem value_zeros (n : Nat) : value (List.replicate n 0) = 0 :=
  value_eq_zero.2 fun _ hb => List.eq_of_mem_replicate hb

theorem value_take_add_drop (n : Nat) (bytes : List UInt8) :
    value bytes = value (bytes.take n) + 2 ^ (8 * (bytes.take n).length) * value (bytes.drop n) := by
  rw [← value_append, List.take_append_drop]

theorem value_take (n : Nat) (bytes : List UInt8) : value (bytes.take n) = value bytes % 2 ^ (8 * n) := by
  have hsplit := value_take_add_drop n bytes
  have hlt := value_lt (bytes.take n)
  by_cases h : n ≤ bytes.length
  · rw [List.length_take_of_le h] at hsplit hlt
    rw [hsplit, Nat.add_mul_mod_self_left, Nat.mod_eq_of_lt hlt]
  · have hall : bytes.take n = bytes := List.take_of_length_le (Nat.le_of_not_le h)
    have hmore : 2 ^ (8 * bytes.length) ≤ 2 ^ (8 * n) := Nat.pow_le_pow_right (by decide) (by omega)
    rw [hall, Nat.mod_eq_of_lt (Nat.lt_of_lt_of_le (value_lt bytes) hmore)]

theorem value_resized (n : Nat) (bytes : List UInt8) : value (resized n bytes) = value bytes % 2 ^ (8 * n) := by
  rw [resized, value_append, value_zeros, Nat.mul_zero, Nat.add_zero, value_take]

theorem value_complement (bytes : List UInt8) : value (complement bytes) + value bytes + 1 = 2 ^ (8 * bytes.length) := by
  induction bytes with
  | nil => rfl
  | cons b bytes ih =>
    have hb : (~~~b).toNat + b.toNat = 255 := by
      have hlt := b.toNat_lt
      rw [UInt8.toNat_not, UInt8.size]
      omega
    change (~~~b).toNat + 256 * value (complement bytes) + (b.toNat + 256 * value bytes) + 1 = _
    rw [List.length_cons, two_pow_bits_succ, ← ih]
    omega

/-- Two bytes and a carry of at most one fit the sum, and its high byte is again a carry of at most one. -/
theorem carry_step (x y : UInt8) {carry : UInt16} (h : carry.toNat ≤ 1) :
    let sum := x.toUInt16 + y.toUInt16 + carry
    sum.toNat = x.toNat + y.toNat + carry.toNat ∧ (sum >>> 8).toNat = sum.toNat / 256 ∧ (sum >>> 8).toNat ≤ 1 := by
  intro sum
  have hx := x.toNat_lt
  have hy := y.toNat_lt
  have hsum : sum.toNat = x.toNat + y.toNat + carry.toNat := by
    simp only [sum, UInt16.toNat_add, UInt8.toNat_toUInt16]
    omega
  have hcarry : (sum >>> 8).toNat = sum.toNat / 256 := by
    rw [UInt16.toNat_shiftRight]
    exact Nat.shiftRight_eq_div_pow _ 8
  exact ⟨hsum, hcarry, by omega⟩

theorem value_addCarry {carry : UInt16} (hlength : xs.length = ys.length) (hcarry : carry.toNat ≤ 1) :
    value (addCarry carry xs ys) = (value xs + value ys + carry.toNat) % 2 ^ (8 * xs.length) := by
  induction xs generalizing ys carry with
  | nil => exact (Nat.mod_one _).symm
  | cons x xs ih =>
    cases ys with
    | nil => cases hlength
    | cons y ys =>
      obtain ⟨hsum, hnext, hbound⟩ := carry_step x y hcarry
      have hlow : (value (x :: xs) + value (y :: ys) + carry.toNat) % 256 =
          (x.toNat + y.toNat + carry.toNat) % 256 := by
        simp only [value]
        omega
      have hhigh : (value (x :: xs) + value (y :: ys) + carry.toNat) / 256 =
          value xs + value ys + (x.toNat + y.toNat + carry.toNat) / 256 := by
        simp only [value]
        omega
      rw [addCarry, value, ih (Nat.succ.inj hlength) hbound, hnext, UInt16.toNat_toUInt8, hsum, List.length_cons,
        two_pow_bits_succ, Nat.mod_mul, hlow, hhigh]

theorem byte_and (v u i : Nat) : byte (v &&& u) i = byte v i &&& byte u i := by
  rw [byte, byte, byte, Nat.shiftRight_and_distrib, UInt8.ofNat_and]

theorem byte_xor (v u i : Nat) : byte (v ^^^ u) i = byte v i ^^^ byte u i := by
  rw [byte, byte, byte, Nat.shiftRight_xor_distrib, UInt8.ofNat_xor]

theorem value_zipWith {f : UInt8 → UInt8 → UInt8} {g : Nat → Nat → Nat}
    (hbyte : ∀ v u i, byte (g v u) i = f (byte v i) (byte u i)) (hzero : f 0 0 = 0) (h : xs.length = ys.length) :
    value (List.zipWith f xs ys) = g (value xs) (value ys) := by
  apply eq_of_byte_eq
  intro i
  rw [hbyte, byte_value, byte_value, byte_value, List.getElem?_zipWith]
  by_cases hi : i < xs.length
  · rw [List.getElem?_eq_getElem hi, List.getElem?_eq_getElem (h ▸ hi)]
    rfl
  · rw [List.getElem?_eq_none (Nat.le_of_not_lt hi), List.getElem?_eq_none (h ▸ Nat.le_of_not_lt hi)]
    exact hzero.symm

theorem word?_eq (bytes : List UInt8) : word? bytes = if value bytes < 2 ^ 64 then some (value bytes) else none := by
  have hsplit := value_take_add_drop 8 bytes
  by_cases h : value (bytes.drop 8) = 0
  · have hnone : ¬ (bytes.drop 8).any (· != 0) = true := by
      simpa using value_eq_zero.1 h
    have hlow : value bytes = value (bytes.take 8) := by rw [hsplit, h, Nat.mul_zero, Nat.add_zero]
    have hlt : value (bytes.take 8) < 2 ^ 64 := by
      rw [value_take]
      exact Nat.mod_lt _ (by decide)
    rw [word?, if_neg hnone, hlow, if_pos hlt]
  · have hsome : (bytes.drop 8).any (· != 0) = true := by
      simpa using mt value_eq_zero.2 h
    have hlength : (bytes.take 8).length = 8 := by
      have hdrop : bytes.drop 8 ≠ [] := fun hnil => h (by rw [hnil]; rfl)
      rw [List.length_take_of_le (Nat.le_of_lt (by simpa using hdrop))]
    rw [hlength] at hsplit
    rw [word?, if_pos hsome, if_neg (by omega)]

end LittleEndian

namespace Constant

open LittleEndian

variable {c : Constant} {w : Width} {loop : List UInt8} {n : Nat}

def octets (c : Constant) : List UInt8 := c.bytes.data.toList

theorem value_octets (c : Constant) : LittleEndian.value c.octets = c.value := by
  rw [octets, ← toNat_eq, value_bytes]

theorem length_octets (c : Constant) : c.octets.length = c.width.bytes := by
  rw [octets, bytes, toList_ofNat, length_digits]

theorem octets_eq_of_value (hlength : loop.length = c.width.bytes) (hvalue : LittleEndian.value loop = c.value) :
    c.octets = loop := by
  rw [octets, bytes, toList_ofNat, ← hlength, ← hvalue, digits_value]

/-- A constant of width `w` that stands for `n` and has the bytes that a loop puts out. -/
structure Computes (c : Constant) (w : Width) (loop : List UInt8) (n : Nat) : Prop where
  octets : c.octets = loop
  length : c.octets.length = w.bytes
  value : LittleEndian.value c.octets = n

theorem computes (hw : c.width = w) (hlength : loop.length = w.bytes) (hloop : LittleEndian.value loop = n)
    (hvalue : c.value = n) : Computes c w loop n where
  octets := octets_eq_of_value (hw ▸ hlength) (hloop.trans hvalue.symm)
  length := hw ▸ length_octets c
  value := (value_octets c).trans hvalue

def operand (c : Constant) (w : Width) : List UInt8 := resized w.bytes c.octets

@[simp] theorem length_operand (c : Constant) (w : Width) : (c.operand w).length = w.bytes := length_resized

theorem value_octets_mod (c : Constant) (w : Width) :
    LittleEndian.value c.octets % 2 ^ (8 * w.bytes) = (c.resize w).value := by
  rw [value_octets, value_resize]
  rfl

theorem value_operand (c : Constant) (w : Width) : LittleEndian.value (c.operand w) = (c.resize w).value := by
  rw [operand, value_resized, value_octets_mod]

theorem computes_resize (a : Constant) (w : Width) : Computes (a.resize w) w (a.operand w) (a.resize w).value :=
  computes rfl (length_operand a w) (value_operand a w) rfl

theorem computes_add (a b : Constant) (w : Width) :
    Computes (a.binary .add b w) w (addCarry 0 (a.operand w) (b.operand w))
      (((a.resize w).value + (b.resize w).value) % 2 ^ w.bits) := by
  have hlength : (a.operand w).length = (b.operand w).length := by simp
  refine computes rfl ?_ ?_ (value_ofNat w _)
  · rw [length_addCarry hlength, length_operand]
  · rw [value_addCarry hlength (by decide), value_operand, value_operand, length_operand]
    rfl

theorem sub_emod {x y m : Nat} (h : y < m) : (((x : Int) - y) % m).toNat = (x + (m - 1 - y) + 1) % m := by
  have hsum : ((x + (m - 1 - y) + 1 : Nat) : Int) = (x : Int) - y + m := by omega
  have hmod : ((x : Int) - y) % m = (((x + (m - 1 - y) + 1) % m : Nat) : Int) := by
    rw [Int.natCast_emod, hsum, Int.add_emod_right]
  rw [hmod, Int.toNat_natCast]

theorem value_operand_complement (c : Constant) (w : Width) :
    LittleEndian.value (complement (c.operand w)) = 2 ^ w.bits - 1 - (c.resize w).value := by
  have hsum := value_complement (c.operand w)
  rw [length_operand, value_operand] at hsum
  change _ = 2 ^ w.bits at hsum
  omega

theorem computes_sub (a b : Constant) (w : Width) :
    Computes (a.binary .sub b w) w (addCarry 1 (a.operand w) (complement (b.operand w)))
      ((((a.resize w).value : Int) - (b.resize w).value) % (2 ^ w.bits : Nat)).toNat := by
  have hlength : (a.operand w).length = (complement (b.operand w)).length := by simp
  have hx : (a.resize w).value < 2 ^ w.bits := (a.resize w).fits
  have hy : (b.resize w).value < 2 ^ w.bits := (b.resize w).fits
  rw [sub_emod hy]
  refine computes rfl ?_ ?_ ?_
  · rw [length_addCarry hlength, length_operand]
  · rw [value_addCarry hlength (by decide), value_operand, value_operand_complement, length_operand]
    rfl
  · rw [binary, value_ofNat, Nat.one_shiftLeft]
    split
    · rename_i hle
      rw [show (a.resize w).value + (2 ^ w.bits - 1 - (b.resize w).value) + 1 =
        (a.resize w).value - (b.resize w).value + 2 ^ w.bits by omega, Nat.add_mod_right]
    · congr 1
      omega

theorem computes_bitwise {op : BinaryOp} {f : UInt8 → UInt8 → UInt8} {g : Nat → Nat → Nat} {a b : Constant}
    (hop : a.binary op b w = ofNat w (g (a.resize w).value (b.resize w).value))
    (hbyte : ∀ v u i, LittleEndian.byte (g v u) i = f (LittleEndian.byte v i) (LittleEndian.byte u i))
    (hzero : f 0 0 = 0) :
    Computes (a.binary op b w) w (List.zipWith f (a.operand w) (b.operand w))
      (g (a.resize w).value (b.resize w).value) := by
  have hlength : (List.zipWith f (a.operand w) (b.operand w)).length = w.bytes := by simp
  have hloop : LittleEndian.value (List.zipWith f (a.operand w) (b.operand w)) = g (a.resize w).value (b.resize w).value := by
    rw [value_zipWith hbyte hzero (by simp), value_operand, value_operand]
  have hlt : g (a.resize w).value (b.resize w).value < 2 ^ w.bits := by
    rw [← hloop, Width.bits, ← hlength]
    exact value_lt _
  refine computes (congrArg width hop) hlength hloop ?_
  rw [hop, value_ofNat, Nat.mod_eq_of_lt hlt]

theorem computes_not (a : Constant) (w : Width) :
    Computes (a.unary .not w) w (complement (a.operand w)) (2 ^ w.bits - 1 - (a.resize w).value) := by
  refine computes rfl ?_ (value_operand_complement a w) ?_
  · rw [length_complement, length_operand]
  · rw [unary, value_ofNat, Nat.one_shiftLeft]
    have := Nat.two_pow_pos w.bits
    exact Nat.mod_eq_of_lt (by omega)

theorem computes_neg (a : Constant) (w : Width) :
    Computes (a.unary .neg w) w (addCarry 0 (complement (a.operand w)) (resized w.bytes (digits 8 1)))
      ((-((a.resize w).value : Int)) % (2 ^ w.bits : Nat)).toNat := by
  have hlength : (complement (a.operand w)).length = (resized w.bytes (digits 8 1)).length := by simp
  have hx : (a.resize w).value < 2 ^ w.bits := (a.resize w).fits
  have hneg := sub_emod (x := 0) hx
  rw [Int.natCast_zero, Int.zero_sub] at hneg
  rw [hneg]
  refine computes rfl ?_ ?_ ?_
  · rw [length_addCarry hlength, length_complement, length_operand]
  · have hone : LittleEndian.value (digits 8 1) = 1 := by decide
    rw [value_addCarry hlength (by decide), value_operand_complement, value_resized, hone, length_complement,
      length_operand, Nat.zero_add, UInt16.toNat_zero, Nat.add_zero, Nat.add_mod_mod]
    rfl
  · rw [unary, value_ofNat, Nat.one_shiftLeft]
    congr 1
    omega

theorem toWord?_eq (c : Constant) : c.toWord? = word? c.octets := by
  rw [word?_eq, value_octets, toWord?]

theorem toWord?_eq_some_iff {m : Nat} : c.toWord? = some m ↔ LittleEndian.value c.octets = m ∧ m < 2 ^ 64 := by
  rw [value_octets, toWord?, Option.ite_none_right_eq_some, Option.some.injEq, and_comm]
  exact and_congr_right fun h => by rw [h]

/-- Each operation goes through the bytes of its operands in one loop, and what the loop leaves stands for the exact
result. -/
theorem arithmetic_is_modular (a b : Constant) (w : Width) :
    let A := LittleEndian.value a.octets % 2 ^ (8 * w.bytes)
    let B := LittleEndian.value b.octets % 2 ^ (8 * w.bytes)
    let x := resized w.bytes a.octets
    let y := resized w.bytes b.octets
    Computes (a.resize w) w x A ∧
      Computes (a.binary .add b w) w (addCarry 0 x y) ((A + B) % 2 ^ (8 * w.bytes)) ∧
      Computes (a.binary .sub b w) w (addCarry 1 x (complement y))
        (((A : Int) - B) % (2 ^ (8 * w.bytes) : Nat)).toNat ∧
      Computes (a.binary .and b w) w (List.zipWith (· &&& ·) x y) (A &&& B) ∧
      Computes (a.binary .or b w) w (List.zipWith (· ||| ·) x y) (A ||| B) ∧
      Computes (a.binary .xor b w) w (List.zipWith (· ^^^ ·) x y) (A ^^^ B) ∧
      Computes (a.unary .not w) w (complement x) (2 ^ (8 * w.bytes) - 1 - A) ∧
      Computes (a.unary .neg w) w (addCarry 0 (complement x) (resized w.bytes (digits 8 1)))
        ((-(A : Int)) % (2 ^ (8 * w.bytes) : Nat)).toNat ∧
      a.toWord? = word? a.octets ∧
      ∀ n, a.toWord? = some n ↔ LittleEndian.value a.octets = n ∧ n < 2 ^ 64 := by
  intro A B x y
  have hA : A = (a.resize w).value := value_octets_mod a w
  have hB : B = (b.resize w).value := value_octets_mod b w
  rw [hA, hB]
  exact ⟨computes_resize a w, computes_add a b w, computes_sub a b w,
    computes_bitwise rfl byte_and rfl, computes_bitwise rfl LittleEndian.byte_or rfl,
    computes_bitwise rfl byte_xor rfl, computes_not a w, computes_neg a w, toWord?_eq a,
    fun n => toWord?_eq_some_iff⟩

end Constant

end LayeredMemory
