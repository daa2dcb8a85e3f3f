import LayeredMemory.Proofs.Checked.Words
import LayeredMemory.Proofs.Constant.Arithmetic
import LayeredMemory.Proofs.Expr.Evaluation

namespace LayeredMemory

namespace LittleEndian

open Checked

variable {bytes out : List UInt8} {f : Nat → Except Misfit UInt8} {v n i j k q r : Nat}

def fill (f : Nat → Except Misfit UInt8) (out : List UInt8) (i : Nat) : Nat → Except Misfit (List UInt8)
  | 0 => return out
  | n + 1 => do
    let b ← f i
    let out ← putByte out i b
    fill f out (i + 1) n

def leftByte (bytes : List UInt8) (q r i : Nat) : Except Misfit UInt8 := do
  let source ← sub i q
  let kept ← byteAt bytes source
  let high ← shl kept r
  if 0 < r ∧ 0 < source then do
    let next ← sub source 1
    let below ← byteAt bytes next
    let rest ← sub 8 r
    let low ← shr below rest
    return high ||| low
  else return high

def rightByte (bytes : List UInt8) (q r i : Nat) : Except Misfit UInt8 := do
  let source ← add i q
  let kept ← byteAt bytes source
  let low ← shr kept r
  let next ← add source 1
  if 0 < r ∧ next < bytes.length then do
    let above ← byteAt bytes next
    let rest ← sub 8 r
    let high ← shl above rest
    return low ||| high
  else return low

def move (f : Nat → Except Misfit UInt8) (start length n : Nat) : Except Misfit (List UInt8) := do
  let zeros := List.replicate length 0
  let bits ← mul length 8
  if bits ≤ n then return zeros
  else do
    let count ← sub length (n / 8)
    fill f zeros start count

def shiftLeft (bytes : List UInt8) (n : Nat) : Except Misfit (List UInt8) :=
  move (leftByte bytes (n / 8) (n % 8)) (n / 8) bytes.length n

def shiftRight (bytes : List UInt8) (n : Nat) : Except Misfit (List UInt8) :=
  move (rightByte bytes (n / 8) (n % 8)) 0 bytes.length n

theorem fill_ok {g : Nat → UInt8} (hroom : i + n ≤ out.length) (hf : ∀ j, i ≤ j → j < i + n → f j = .ok (g j)) :
    ∃ filled, fill f out i n = .ok filled ∧ filled.length = out.length ∧
      ∀ j, filled[j]? = if i ≤ j ∧ j < i + n then some (g j) else out[j]? := by
  induction n generalizing out i with
  | zero => exact ⟨out, rfl, rfl, fun j => (if_neg (by omega)).symm⟩
  | succ n ih =>
    have hset : (out.set i (g i)).length = out.length := List.length_set
    have hleft : i + 1 + n ≤ (out.set i (g i)).length := by omega
    obtain ⟨filled, hfilled, hlength, hget⟩ := ih hleft fun j hlo hhi => hf j (by omega) (by omega)
    refine ⟨filled, ?_, hlength.trans hset, fun j => ?_⟩
    · rw [fill, bind_ok (hf i (Nat.le_refl i) (by omega)), bind_ok (putByte_ok (by omega))]
      exact hfilled
    · rw [hget, List.getElem?_set]
      by_cases hi : i = j
      · subst hi
        rw [if_neg (by omega), if_pos rfl, if_pos (by omega), if_pos (by omega)]
      · rw [if_neg hi]
        by_cases hj : i + 1 ≤ j ∧ j < i + 1 + n
        · rw [if_pos hj, if_pos (by omega)]
        · rw [if_neg hj, if_neg (by omega)]

theorem toNat_amount (hr : r < 8) : (UInt8.ofNat r).toNat % 8 = r := by
  rw [UInt8.toNat_ofNat']
  omega

theorem testBit_shl (b : UInt8) (hr : r < 8) :
    (b <<< UInt8.ofNat r).toNat.testBit k = (decide (k < 8) && (decide (r ≤ k) && b.toNat.testBit (k - r))) := by
  rw [UInt8.toNat_shiftLeft, toNat_amount hr, Nat.testBit_mod_two_pow, Nat.testBit_shiftLeft]

theorem testBit_shr (b : UInt8) (hr : r < 8) : (b >>> UInt8.ofNat r).toNat.testBit k = b.toNat.testBit (r + k) := by
  rw [UInt8.toNat_shiftRight, toNat_amount hr, Nat.testBit_shiftRight]

theorem byte_eq_of_testBit {b : UInt8} (h : ∀ k < 8, v.testBit (8 * i + k) = b.toNat.testBit k) : byte v i = b := by
  have hself : byte b.toNat 0 = b := by simp [byte]
  rw [← hself]
  apply byte_ext
  intro k hk
  rw [h k hk, Nat.mul_zero, Nat.zero_add]

theorem byte_shiftLeft_of_lt (h : i < q) : byte (v <<< (8 * q + r)) i = 0 := by
  apply byte_eq_of_testBit
  intro k hk
  rw [Nat.testBit_shiftLeft, decide_eq_false (by omega), Bool.false_and, UInt8.toNat_zero, Nat.zero_testBit]

theorem byte_shiftLeft_bits (v i : Nat) (hr : r < 8) :
    byte (v <<< (8 * q + r)) (q + i) =
      let b := byte v i <<< UInt8.ofNat r
      if 0 < r ∧ 0 < i then b ||| byte v (i - 1) >>> UInt8.ofNat (8 - r) else b := by
  apply byte_eq_of_testBit
  intro k hk
  rw [Nat.testBit_shiftLeft]
  split
  · rename_i hborrow
    rw [UInt8.toNat_or, Nat.testBit_or, testBit_shl _ hr, testBit_shr _ (by omega), testBit_byte, testBit_byte]
    by_cases hrk : r ≤ k
    · rw [show 8 * (q + i) + k - (8 * q + r) = 8 * i + (k - r) by omega]
      simp (disch := omega) only [decide_eq_true, decide_eq_false, Bool.true_and, Bool.false_and, Bool.or_false]
    · rw [show 8 * (q + i) + k - (8 * q + r) = 8 * (i - 1) + (8 - r + k) by omega]
      simp (disch := omega) only [decide_eq_true, decide_eq_false, Bool.true_and, Bool.false_and, Bool.and_false,
        Bool.false_or]
  · rename_i hlowest
    rw [testBit_shl _ hr, testBit_byte]
    by_cases hrk : r ≤ k
    · rw [show 8 * (q + i) + k - (8 * q + r) = 8 * i + (k - r) by omega]
      simp (disch := omega) only [decide_eq_true, Bool.true_and]
    · simp (disch := omega) only [decide_eq_true, decide_eq_false, Bool.true_and, Bool.false_and]

theorem byte_shiftRight_bits (v i : Nat) (hr : r < 8) :
    byte (v >>> (8 * q + r)) i =
      let b := byte v (i + q) >>> UInt8.ofNat r
      if 0 < r then b ||| byte v (i + q + 1) <<< UInt8.ofNat (8 - r) else b := by
  apply byte_eq_of_testBit
  intro k hk
  rw [Nat.testBit_shiftRight]
  split
  · rename_i hborrow
    rw [UInt8.toNat_or, Nat.testBit_or, testBit_shr _ hr, testBit_shl _ (by omega), testBit_byte, testBit_byte]
    by_cases hrk : r + k < 8
    · rw [show 8 * q + r + (8 * i + k) = 8 * (i + q) + (r + k) by omega]
      simp (disch := omega) only [decide_eq_true, decide_eq_false, Bool.true_and, Bool.false_and, Bool.and_false,
        Bool.or_false]
    · rw [show 8 * q + r + (8 * i + k) = 8 * (i + q + 1) + (k - (8 - r)) by omega]
      simp (disch := omega) only [decide_eq_true, decide_eq_false, Bool.true_and, Bool.false_and, Bool.false_or]
  · rename_i hwhole
    rw [testBit_shr _ hr, testBit_byte, show 8 * q + r + (8 * i + k) = 8 * (i + q) + (r + k) by omega,
      decide_eq_true (by omega), Bool.true_and]

theorem byteAt_eq (h : i < bytes.length) : byteAt bytes i = .ok (byte (value bytes) i) := by
  rw [byteAt_ok h, byte_value, List.getElem?_eq_getElem h]
  rfl

theorem leftByte_ok (hr : r < 8) (hlo : q ≤ i) (hhi : i - q < bytes.length) :
    leftByte bytes q r i = .ok (byte (value bytes <<< (8 * q + r)) i) := by
  have hmoved := byte_shiftLeft_bits (q := q) (value bytes) (i - q) hr
  rw [show q + (i - q) = i by omega] at hmoved
  rw [leftByte, bind_ok (overflow_ok (sub_ok hlo)), bind_ok (byteAt_eq hhi), bind_ok (shl_ok hr), hmoved]
  dsimp only
  split
  · rename_i hborrow
    rw [bind_ok (overflow_ok (sub_ok hborrow.2)), bind_ok (byteAt_eq (by omega)),
      bind_ok (overflow_ok (sub_ok (Nat.le_of_lt hr))), bind_ok (shr_ok (by omega))]
    rfl
  · rfl

theorem rightByte_ok (hr : r < 8) (hfit : bytes.length ≤ Address.last) (h : i + q < bytes.length) :
    rightByte bytes q r i = .ok (byte (value bytes >>> (8 * q + r)) i) := by
  have hadd : add i q = .ok (i + q) := add_ok (by omega)
  have hnext : add (i + q) 1 = .ok (i + q + 1) := add_ok (by omega)
  rw [rightByte, bind_ok (overflow_ok hadd), bind_ok (byteAt_eq h), bind_ok (shr_ok hr), bind_ok (overflow_ok hnext),
    byte_shiftRight_bits (value bytes) i hr]
  dsimp only
  by_cases hend : i + q + 1 < bytes.length
  · simp only [hend, and_true]
    split
    · rw [bind_ok (byteAt_eq hend), bind_ok (overflow_ok (sub_ok (Nat.le_of_lt hr))), bind_ok (shl_ok (by omega))]
      rfl
    · rfl
  · -- There is no byte above the highest one, so the one that is taken over is zero.
    have habove : byte (value bytes) (i + q + 1) = 0 := by
      rw [byte_value, List.getElem?_eq_none (Nat.le_of_not_lt hend)]
      rfl
    simp only [hend, and_false, habove, UInt8.zero_shiftLeft, UInt8.or_zero, ite_self]
    rfl

theorem byte_shiftRight_of_le (h : bytes.length ≤ i + q) : byte (value bytes >>> (8 * q + r)) i = 0 := by
  apply byte_eq_of_testBit
  intro k hk
  rw [Nat.testBit_shiftRight, UInt8.toNat_zero, Nat.zero_testBit]
  have hlt := value_lt bytes
  exact Nat.testBit_lt_two_pow (Nat.lt_of_lt_of_le hlt (Nat.pow_le_pow_right (by decide) (by omega)))

/-- The bytes of a number, each put where the loop writes it, if all others of the number are zero. -/
theorem move_ok {start m : Nat} (hfit : m < 2 ^ 32) (hstart : start ≤ n / 8)
    (hout : 8 * m ≤ n → v % 2 ^ (8 * m) = 0)
    (hbytes : ∀ j, start ≤ j → j < start + (m - n / 8) → f j = .ok (byte v j))
    (hzeros : ∀ j < m, ¬ (start ≤ j ∧ j < start + (m - n / 8)) → byte v j = 0) :
    ∃ moved, move f start m n = .ok moved ∧ moved.length = m ∧ value moved = v % 2 ^ (8 * m) := by
  have hlength : (List.replicate m (0 : UInt8)).length = m := List.length_replicate
  rw [move, bind_ok (overflow_ok (mul_ok (bits_le_last hfit)))]
  split
  · rename_i hall
    exact ⟨_, rfl, hlength, by rw [value_zeros, hout (by omega)]⟩
  · rename_i hsome
    have hroom : start + (m - n / 8) ≤ (List.replicate m (0 : UInt8)).length := by omega
    obtain ⟨moved, hmoved, hsame, hget⟩ := fill_ok hroom hbytes
    refine ⟨moved, ?_, hsame.trans hlength, ?_⟩
    · rw [bind_ok (overflow_ok (sub_ok (by omega)))]
      exact hmoved
    · apply eq_of_byte_eq
      intro j
      rw [byte_mod, byte_value, hget]
      by_cases hj : j < m
      · rw [if_pos hj]
        by_cases hwritten : start ≤ j ∧ j < start + (m - n / 8)
        · rw [if_pos hwritten]
          rfl
        · rw [if_neg hwritten, List.getElem?_replicate_of_lt hj, Option.getD_some, hzeros j hj hwritten]
      · rw [if_neg hj, if_neg (by omega), List.getElem?_eq_none (by omega)]
        rfl

theorem mul_two_pow_mod {m : Nat} (x : Nat) (h : m ≤ n) : x * 2 ^ n % 2 ^ m = 0 :=
  Nat.mod_eq_zero_of_dvd (Nat.dvd_mul_left_of_dvd (Nat.pow_dvd_pow 2 h) x)

theorem div_two_pow {x m : Nat} (hx : x < 2 ^ m) (h : m ≤ n) : x / 2 ^ n = 0 :=
  Nat.div_eq_of_lt (Nat.lt_of_lt_of_le hx (Nat.pow_le_pow_right (by decide) h))

theorem shiftLeft_ok (hfit : bytes.length < 2 ^ 32) (n : Nat) :
    ∃ shifted, shiftLeft bytes n = .ok shifted ∧ shifted.length = bytes.length ∧
      value shifted = value bytes * 2 ^ n % 2 ^ (8 * bytes.length) := by
  have hn : 8 * (n / 8) + n % 8 = n := Nat.div_add_mod n 8
  have hr : n % 8 < 8 := Nat.mod_lt _ (by decide)
  rw [← Nat.shiftLeft_eq]
  apply move_ok hfit (Nat.le_refl _)
  · intro hout
    rw [Nat.shiftLeft_eq, mul_two_pow_mod _ hout]
  · intro j hlo hhi
    rw [leftByte_ok hr hlo (by omega), hn]
  · intro j _ hj
    rw [← hn]
    exact byte_shiftLeft_of_lt (by omega)

example : shiftLeft [0xef, 0xcd, 0xab] 12 = .ok [0x00, 0xf0, 0xde] := rfl

theorem shiftRight_ok (hfit : bytes.length < 2 ^ 32) (n : Nat) :
    ∃ shifted, shiftRight bytes n = .ok shifted ∧ shifted.length = bytes.length ∧
      value shifted = value bytes / 2 ^ n := by
  have hn : 8 * (n / 8) + n % 8 = n := Nat.div_add_mod n 8
  have hr : n % 8 < 8 := Nat.mod_lt _ (by decide)
  have hlast := bits_le_last hfit
  have hlt := value_lt bytes
  have hfits : value bytes / 2 ^ n < 2 ^ (8 * bytes.length) := Nat.lt_of_le_of_lt (Nat.div_le_self _ _) hlt
  rw [← Nat.mod_eq_of_lt hfits, ← Nat.shiftRight_eq_div_pow]
  apply move_ok hfit (Nat.zero_le _)
  · intro hout
    rw [Nat.shiftRight_eq_div_pow, div_two_pow hlt hout, Nat.zero_mod]
  · intro j _ hj
    rw [rightByte_ok hr (by omega) (by omega), hn]
  · intro j _ hj
    rw [← hn]
    exact byte_shiftRight_of_le (by omega)

end LittleEndian

namespace Constant

open LittleEndian

/-- The bits to shift by: more than a word can count are as many as a word can. -/
def amount (c : Constant) : Nat := (word? c.octets).getD (2 ^ 64 - 1)

theorem amount_eq_or (c : Constant) (w : Width) : c.amount = c.value ∨ w.bits ≤ c.amount ∧ w.bits ≤ c.value := by
  have hbits : w.bits < 2 ^ 35 := by
    have := w.fits
    rw [Width.bits]
    omega
  rw [amount, word?_eq, value_octets]
  split
  · exact .inl rfl
  · rename_i hword
    exact .inr ⟨Nat.le_trans (Nat.le_of_lt hbits) (by decide), by omega⟩

theorem value_shl (a b : Constant) (w : Width) :
    (a.binary .shl b w).value = (a.resize w).value * 2 ^ b.value % 2 ^ w.bits := by
  rw [binary, value_ofNat]
  split
  · rw [Nat.shiftLeft_eq]
  · rename_i hout
    rw [Nat.zero_mod, mul_two_pow_mod _ (Nat.le_of_not_lt hout)]

theorem value_shr (a b : Constant) (w : Width) : (a.binary .shr b w).value = (a.resize w).value / 2 ^ b.value := by
  have hx : (a.resize w).value < 2 ^ w.bits := (a.resize w).fits
  rw [binary, value_ofNat]
  split
  · rw [Nat.shiftRight_eq_div_pow, Nat.mod_eq_of_lt (Nat.lt_of_le_of_lt (Nat.div_le_self _ _) hx)]
  · rename_i hout
    rw [Nat.zero_mod, div_two_pow hx (Nat.le_of_not_lt hout)]

theorem operand_fits (c : Constant) (w : Width) : (c.operand w).length < 2 ^ 32 := by
  rw [length_operand]
  exact w.fits

theorem computes_shl (a b : Constant) (w : Width) :
    ∃ shifted, shiftLeft (a.operand w) b.amount = .ok shifted ∧
      Computes (a.binary .shl b w) w shifted ((a.resize w).value * 2 ^ b.value % 2 ^ w.bits) := by
  obtain ⟨shifted, hshifted, hlength, hvalue⟩ := shiftLeft_ok (operand_fits a w) b.amount
  rw [length_operand] at hlength hvalue
  refine ⟨shifted, hshifted, computes rfl hlength ?_ (value_shl a b w)⟩
  rw [hvalue, value_operand]
  change _ % 2 ^ w.bits = _
  obtain h | ⟨hamount, hout⟩ := amount_eq_or b w
  · rw [h]
  · rw [mul_two_pow_mod _ hamount, mul_two_pow_mod _ hout]

theorem computes_shr (a b : Constant) (w : Width) :
    ∃ shifted, shiftRight (a.operand w) b.amount = .ok shifted ∧
      Computes (a.binary .shr b w) w shifted ((a.resize w).value / 2 ^ b.value) := by
  have hx : (a.resize w).value < 2 ^ w.bits := (a.resize w).fits
  obtain ⟨shifted, hshifted, hlength, hvalue⟩ := shiftRight_ok (operand_fits a w) b.amount
  rw [length_operand] at hlength
  refine ⟨shifted, hshifted, computes rfl hlength ?_ (value_shr a b w)⟩
  rw [hvalue, value_operand]
  obtain h | ⟨hamount, hout⟩ := amount_eq_or b w
  · rw [h]
  · rw [div_two_pow hx hamount, div_two_pow hx hout]

/-- The loops read and write only bytes that are there, whatever the amount, which is read at its own width. -/
theorem shifts_are_exact (a r : Constant) (w : Width) :
    let A := LittleEndian.value a.octets % 2 ^ (8 * w.bytes)
    let n := LittleEndian.value r.octets
    let x := resized w.bytes a.octets
    (∃ left, shiftLeft x r.amount = .ok left ∧
        Computes (a.binary .shl r w) w left (A * 2 ^ n % 2 ^ (8 * w.bytes))) ∧
      (∃ right, shiftRight x r.amount = .ok right ∧ Computes (a.binary .shr r w) w right (A / 2 ^ n)) ∧
      (8 * w.bytes ≤ n → a.binary .shl r w = zero w ∧ a.binary .shr r w = zero w) := by
  intro A n x
  have hA : A = (a.resize w).value := value_octets_mod a w
  have hn : n = r.value := value_octets r
  rw [hA, hn]
  exact ⟨computes_shl a r w, computes_shr a r w, fun h => ⟨binary_shifted_out rfl h, binary_shifted_out rfl h⟩⟩

/-- No word holds the amount. -/
theorem shifts_are_exact_beyond_words :
    let r : Constant := .ofNat ⟨9, by decide⟩ (2 ^ 64)
    r.toWord? = none ∧ 8 * Width.w16.bytes ≤ LittleEndian.value r.octets ∧
      (ofNat .w16 0xffff).binary .shl r .w16 = zero .w16 ∧ (ofNat .w16 0xffff).binary .shr r .w16 = zero .w16 := by
  intro r
  have hout : 8 * Width.w16.bytes ≤ LittleEndian.value r.octets := by
    rw [value_octets]
    decide
  obtain ⟨-, -, hzero⟩ := shifts_are_exact (ofNat .w16 0xffff) r .w16
  exact ⟨by decide, hout, hzero hout⟩

end Constant

end LayeredMemory
