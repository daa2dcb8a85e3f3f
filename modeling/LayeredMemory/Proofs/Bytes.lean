import LayeredMemory.Constant

namespace LayeredMemory

namespace LittleEndian

def byte (v i : Nat) : UInt8 := UInt8.ofNat (v >>> (8 * i))

theorem testBit_byte (v i k : Nat) :
    (byte v i).toNat.testBit k = (decide (k < 8) && v.testBit (8 * i + k)) := by
  rw [byte, UInt8.toNat_ofNat']
  simp only [Nat.testBit_mod_two_pow, Nat.testBit_shiftRight]

theorem byte_ext {v u i j : Nat}
    (h : ∀ k < 8, v.testBit (8 * i + k) = u.testBit (8 * j + k)) : byte v i = byte u j := by
  apply UInt8.toNat.inj
  apply Nat.eq_of_testBit_eq
  intro k
  rw [testBit_byte, testBit_byte]
  by_cases hk : k < 8
  · simp only [hk, decide_true, Bool.true_and, h k hk]
  · simp [hk]

theorem byte_zero (i : Nat) : byte 0 i = 0 := by
  simp [byte]

theorem eq_of_byte_eq {v u : Nat} (h : ∀ i, byte v i = byte u i) : v = u := by
  apply Nat.eq_of_testBit_eq
  intro k
  have hk := congrArg (fun b => b.toNat.testBit (k % 8)) (h (k / 8))
  simp only [testBit_byte, show 8 * (k / 8) + k % 8 = k by omega,
    show k % 8 < 8 from Nat.mod_lt _ (by decide), decide_true, Bool.true_and] at hk
  exact hk

theorem byte_mod (v n i : Nat) : byte (v % 2 ^ (8 * n)) i = if i < n then byte v i else 0 := by
  split
  · apply byte_ext
    intro k hk
    rw [Nat.testBit_mod_two_pow, decide_eq_true (by omega), Bool.true_and]
  · rw [← byte_zero i]
    apply byte_ext
    intro k hk
    rw [Nat.testBit_mod_two_pow, decide_eq_false (by omega), Bool.false_and, Nat.zero_testBit]

theorem byte_shiftRight (v n i : Nat) : byte (v >>> (8 * n)) i = byte v (n + i) := by
  rw [byte, byte, ← Nat.shiftRight_add, Nat.mul_add]

theorem byte_shiftLeft (v n i : Nat) : byte (v <<< (8 * n)) i = if i < n then 0 else byte v (i - n) := by
  split
  · rw [← byte_zero i]
    apply byte_ext
    intro k hk
    rw [Nat.testBit_shiftLeft, decide_eq_false (by omega), Bool.false_and, Nat.zero_testBit]
  · apply byte_ext
    intro k hk
    rw [Nat.testBit_shiftLeft, decide_eq_true (by omega), Bool.true_and,
      show 8 * i + k - 8 * n = 8 * (i - n) + k by omega]

theorem byte_or (v u i : Nat) : byte (v ||| u) i = byte v i ||| byte u i := by
  apply UInt8.toNat.inj
  apply Nat.eq_of_testBit_eq
  intro k
  rw [UInt8.toNat_or, Nat.testBit_or, testBit_byte, testBit_byte, testBit_byte, Nat.testBit_or,
    Bool.and_or_distrib_left]

theorem getElem?_digits (n v i : Nat) : (digits n v)[i]? = if i < n then some (byte v i) else none := by
  induction n generalizing v i with
  | zero => simp [digits]
  | succ n ih =>
    cases i with
    | zero => simp [digits, byte]
    | succ i =>
      rw [digits, List.getElem?_cons_succ, ih]
      simp only [Nat.add_lt_add_iff_right]
      congr 2
      rw [show v / 256 = v >>> (8 * 1) from (Nat.shiftRight_eq_div_pow v 8).symm, byte_shiftRight,
        Nat.add_comm]

theorem byte_value (bytes : List UInt8) (i : Nat) : byte (value bytes) i = bytes[i]?.getD 0 := by
  have h := getElem?_digits bytes.length (value bytes) i
  rw [digits_value] at h
  rw [h]
  split
  · rfl
  · rename_i hi
    have hlt := value_lt bytes
    rw [← Nat.mod_eq_of_lt hlt, byte_mod, if_neg hi]
    rfl

end LittleEndian

namespace Constant

def byte (c : Constant) (i : Nat) : UInt8 := LittleEndian.byte c.value i

theorem byte_eq_zero {c : Constant} {i : Nat} (h : c.width.bytes ≤ i) : c.byte i = 0 := by
  have hv : c.value % 2 ^ (8 * c.width.bytes) = c.value := Nat.mod_eq_of_lt c.fits
  rw [byte, ← hv, LittleEndian.byte_mod, if_neg (by omega)]

theorem ext_of_byte {c d : Constant} (hw : c.width = d.width)
    (h : ∀ i < c.width.bytes, c.byte i = d.byte i) : c = d := by
  apply Constant.ext hw
  apply LittleEndian.eq_of_byte_eq
  intro i
  by_cases hi : i < c.width.bytes
  · exact h i hi
  · have hc : c.byte i = 0 := byte_eq_zero (by omega)
    have hd : d.byte i = 0 := byte_eq_zero (by rw [← hw]; omega)
    exact hc.trans hd.symm

theorem byte_ofNat (w : Width) (v i : Nat) :
    (ofNat w v).byte i = if i < w.bytes then LittleEndian.byte v i else 0 := by
  rw [byte, value_ofNat]
  exact LittleEndian.byte_mod v w.bytes i

theorem byte_resize (c : Constant) (w : Width) (i : Nat) :
    (c.resize w).byte i = if i < w.bytes then c.byte i else 0 :=
  byte_ofNat w c.value i

theorem resize_self (c : Constant) : c.resize c.width = c := by
  apply Constant.ext (width_resize c c.width)
  rw [value_resize]
  exact Nat.mod_eq_of_lt c.fits

theorem getElem?_bytes (c : Constant) (i : Nat) :
    c.bytes.data[i]? = if i < c.width.bytes then some (c.byte i) else none := by
  rw [← Array.getElem?_toList, bytes, LittleEndian.toList_ofNat, LittleEndian.getElem?_digits]
  rfl

theorem byte_shr (a b : Constant) (w : Width) (n i : Nat) (hb : b.value = 8 * n) (hw : a.width = w) :
    (a.binary .shr b w).byte i = a.byte (n + i) := by
  subst hw
  simp only [binary, resize_self, hb, byte_ofNat]
  by_cases hi : i < a.width.bytes
  · rw [if_pos hi]
    split
    · exact LittleEndian.byte_shiftRight ..
    · rename_i hn
      simp only [Width.bits] at hn
      rw [LittleEndian.byte_zero, byte_eq_zero (by omega)]
  · rw [if_neg hi, byte_eq_zero (by omega)]

theorem byte_shl (a b : Constant) (w : Width) (n i : Nat) (hb : b.value = 8 * n) :
    (a.binary .shl b w).byte i = if n ≤ i ∧ i < w.bytes then a.byte (i - n) else 0 := by
  simp only [binary, hb, byte_ofNat]
  by_cases hi : i < w.bytes
  · rw [if_pos hi]
    split
    · rw [LittleEndian.byte_shiftLeft]
      by_cases hn : i < n
      · rw [if_pos hn, if_neg (by omega)]
      · rw [if_neg hn, if_pos ⟨by omega, hi⟩]
        exact (byte_resize a w (i - n)).trans (if_pos (by omega))
    · rename_i hn
      simp only [Width.bits] at hn
      rw [LittleEndian.byte_zero, if_neg (by omega)]
  · rw [if_neg hi, if_neg (by omega)]

theorem byte_or (a b : Constant) (w : Width) (i : Nat) :
    (a.binary .or b w).byte i = if i < w.bytes then a.byte i ||| b.byte i else 0 := by
  simp only [binary, byte_ofNat]
  by_cases hi : i < w.bytes
  · have ha := byte_resize a w i
    have hb := byte_resize b w i
    rw [if_pos hi] at ha hb
    rw [if_pos hi, if_pos hi, LittleEndian.byte_or, ← ha, ← hb]
    rfl
  · rw [if_neg hi, if_neg hi]

end Constant

end LayeredMemory
