import LayeredMemory.Words

/-!
Numbers as bytes, the lowest byte first. `digits` and `value` go byte by byte and say what the conversions
mean; `ofNat` and `read` cut long numbers in half, so that their cost does not grow with the square of the
length.
-/

namespace LayeredMemory.LittleEndian

def value : List UInt8 → Nat
  | [] => 0
  | b :: bytes => b.toNat + 256 * value bytes

def digits : Nat → Nat → List UInt8
  | 0, _ => []
  | n + 1, v => UInt8.ofNat v :: digits n (v / 256)

def pushFew (out : ByteArray) : Nat → Nat → ByteArray
  | 0, _ => out
  | n + 1, v => pushFew (out.push (UInt8.ofNat v)) n (v / 256)

def push (out : ByteArray) (n v : Nat) : ByteArray :=
  if n ≤ 7 then pushFew out n v
  else push (push out (n / 2) (lowBits (8 * (n / 2)) v)) (n - n / 2) (v >>> (8 * (n / 2)))
termination_by n

def ofNat (n v : Nat) : ByteArray := push .empty n v

def readFew (bytes : ByteArray) (i : Nat) : Nat → Nat
  | 0 => 0
  | n + 1 => (if h : i < bytes.size then bytes[i].toNat else 0) + 256 * readFew bytes (i + 1) n

def read (bytes : ByteArray) (i n : Nat) : Nat :=
  if n ≤ 7 then readFew bytes i n
  else read bytes i (n / 2) + read bytes (i + n / 2) (n - n / 2) <<< (8 * (n / 2))
termination_by n

def toNat (bytes : ByteArray) : Nat := read bytes 0 bytes.size

@[simp] theorem length_digits (n v : Nat) : (digits n v).length = n := by
  induction n generalizing v with
  | zero => rfl
  | succ n ih => simp [digits, ih]

theorem two_pow_bits_succ (n : Nat) : 2 ^ (8 * (n + 1)) = 256 * 2 ^ (8 * n) := by
  rw [Nat.mul_add, Nat.pow_add, Nat.mul_comm]

theorem digits_add (m n v : Nat) : digits (m + n) v = digits m v ++ digits n (v >>> (8 * m)) := by
  induction m generalizing v with
  | zero => simp [digits]
  | succ m ih =>
    rw [Nat.succ_add, digits, digits, ih, List.cons_append, Nat.shiftRight_eq_div_pow,
      Nat.shiftRight_eq_div_pow, Nat.div_div_eq_div_mul, two_pow_bits_succ]

theorem digits_mod (n v : Nat) : digits n (v % 2 ^ (8 * n)) = digits n v := by
  induction n generalizing v with
  | zero => rfl
  | succ n ih =>
    rw [digits, digits, two_pow_bits_succ, Nat.mod_mul_right_div_self, ih]
    congr 1
    apply UInt8.toNat.inj
    simp

theorem value_digits (n v : Nat) : value (digits n v) = v % 2 ^ (8 * n) := by
  induction n generalizing v with
  | zero => simp [digits, value, Nat.mod_one]
  | succ n ih => simp [digits, value, ih, two_pow_bits_succ, Nat.mod_mul]

theorem value_append (xs ys : List UInt8) :
    value (xs ++ ys) = value xs + 2 ^ (8 * xs.length) * value ys := by
  induction xs with
  | nil => simp [value]
  | cons x xs ih =>
    rw [List.cons_append, value, value, ih, List.length_cons, two_pow_bits_succ, Nat.mul_add,
      Nat.mul_assoc, Nat.add_assoc]

theorem value_lt (bytes : List UInt8) : value bytes < 2 ^ (8 * bytes.length) := by
  induction bytes with
  | nil => simp [value]
  | cons b bytes ih =>
    have := b.toNat_lt
    rw [value, List.length_cons, two_pow_bits_succ]
    omega

theorem digits_value (bytes : List UInt8) : digits bytes.length (value bytes) = bytes := by
  induction bytes with
  | nil => rfl
  | cons b bytes ih =>
    have := b.toNat_lt
    have low : UInt8.ofNat (b.toNat + 256 * value bytes) = b := by
      apply UInt8.toNat.inj
      simp
    have rest : (b.toNat + 256 * value bytes) / 256 = value bytes := by omega
    rw [List.length_cons, digits, value, low, rest, ih]

theorem toList_pushFew (out : ByteArray) (n v : Nat) :
    (pushFew out n v).data.toList = out.data.toList ++ digits n v := by
  induction n generalizing out v with
  | zero => simp [pushFew, digits]
  | succ n ih => simp [pushFew, digits, ih]

theorem toList_push (out : ByteArray) (n v : Nat) :
    (push out n v).data.toList = out.data.toList ++ digits n v := by
  fun_induction push out n v with
  | case1 out n v => exact toList_pushFew out n v
  | case2 out n v _ low high =>
    have half : n = n / 2 + (n - n / 2) := by omega
    rw [high, low, lowBits_eq_mod, digits_mod, List.append_assoc, ← digits_add, ← half]

theorem toList_ofNat (n v : Nat) : (ofNat n v).data.toList = digits n v := by
  rw [ofNat, toList_push]
  rfl

@[simp] theorem size_ofNat (n v : Nat) : (ofNat n v).size = n := by
  rw [← ByteArray.size_data, ← Array.length_toList, toList_ofNat, length_digits]

theorem readFew_eq (bytes : ByteArray) (i n : Nat) :
    readFew bytes i n = value ((bytes.data.toList.drop i).take n) := by
  induction n generalizing i with
  | zero => simp [readFew, value]
  | succ n ih =>
    rw [readFew, ih]
    by_cases h : i < bytes.size
    · have h' : i < bytes.data.toList.length := h
      rw [List.drop_eq_getElem_cons h', List.take_succ_cons, value, dif_pos h]
      rfl
    · have h' : bytes.data.toList.length ≤ i := Nat.le_of_not_lt h
      simp [dif_neg h, List.drop_eq_nil_of_le h', List.drop_eq_nil_of_le (Nat.le_succ_of_le h'), value]

theorem read_eq (bytes : ByteArray) (i n : Nat) :
    read bytes i n = value ((bytes.data.toList.drop i).take n) := by
  fun_induction read bytes i n with
  | case1 i n => exact readFew_eq bytes i n
  | case2 i n _ low high =>
    have half : n = n / 2 + (n - n / 2) := by omega
    rw [low, high]
    conv => rhs; rw [half, List.take_add, value_append, List.drop_drop]
    rw [Nat.shiftLeft_eq, Nat.mul_comm]
    congr 1
    by_cases h : i + n / 2 ≤ bytes.data.toList.length
    · rw [List.length_take, List.length_drop, Nat.min_eq_left (by omega)]
    · simp [List.drop_eq_nil_of_le (Nat.le_of_not_le h), value]

theorem toNat_eq (bytes : ByteArray) : toNat bytes = value bytes.data.toList := by
  have size : bytes.size = bytes.data.toList.length := rfl
  rw [toNat, read_eq, List.drop_zero, size, List.take_length]

end LayeredMemory.LittleEndian
