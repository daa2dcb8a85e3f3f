import LayeredMemory.Proofs.Constant.Shifts
import LayeredMemory.Proofs.Contents
import LayeredMemory.Proofs.Expr.Folding

namespace LayeredMemory

namespace Checked.Folding

open Constant LittleEndian

def first (bytes : List UInt8) (n : Nat) : Except Misfit (List UInt8) := do
  within n bytes.length
  return bytes.take n

/-- A constant has as many bytes as its width says, and a width is below `2 ^ 32`. -/
def constant (bytes : List UInt8) : Except Misfit Constant := do
  let w ← Address.widthOf bytes.length
  return .ofNat w (value bytes)

def resize (c : Constant) (w : Width) : Except Misfit Constant :=
  if c.width = w then return c
  else do
    let kept ← first c.octets (min c.octets.length w.bytes)
    constant (kept ++ List.replicate (w.bytes - kept.length) 0)

def toWord? (c : Constant) : Except Misfit (Option Nat) :=
  if (c.octets.drop 8).any (· != 0) then return none
  else do
    let word ← first c.octets (min c.octets.length 8)
    return some (value word)

def add16 (x y : UInt16) : Except Overflow UInt16 := if x.toNat + y.toNat < 2 ^ 16 then .ok (x + y) else .error .add

def addCarry (carry : UInt16) : List UInt8 → List UInt8 → Except Misfit (List UInt8)
  | x :: xs, y :: ys => do
    let pair ← add16 x.toUInt16 y.toUInt16
    let sum ← add16 pair carry
    let rest ← addCarry (sum >>> 8) xs ys
    return sum.toUInt8 :: rest
  | _, _ => return []

def addComplement (xs ys : List UInt8) : Except Misfit (List UInt8) := addCarry 1 xs (complement ys)

def bytewise (f : UInt8 → UInt8 → UInt8) (xs ys : List UInt8) : Except Misfit (List UInt8) :=
  return List.zipWith f xs ys

def pairwise (f : List UInt8 → List UInt8 → Except Misfit (List UInt8)) (a b : Constant) (w : Width) :
    Except Misfit Constant := do
  let x ← resize a w
  let y ← resize b w
  let bytes ← f x.octets y.octets
  constant bytes

def shifted (f : List UInt8 → Nat → Except Misfit (List UInt8)) (a b : Constant) (w : Width) :
    Except Misfit Constant := do
  let x ← resize a w
  let n ← toWord? b
  let bytes ← f x.octets (n.getD (2 ^ 64 - 1))
  constant bytes

def binary (op : BinaryOp) (a b : Constant) (w : Width) : Except Misfit Constant :=
  match op with
  | .add => pairwise (addCarry 0) a b w
  | .sub => pairwise addComplement a b w
  | .and => pairwise (bytewise (· &&& ·)) a b w
  | .or => pairwise (bytewise (· ||| ·)) a b w
  | .xor => pairwise (bytewise (· ^^^ ·)) a b w
  | .shl => shifted shiftLeft a b w
  | .shr => shifted shiftRight a b w

def unary (op : UnaryOp) (a : Constant) (w : Width) : Except Misfit Constant := do
  let x ← resize a w
  let flipped ← constant (complement x.octets)
  match op with
  | .not => return flipped
  | .neg => do
    let one ← resize (.ofNat .w64 1) w
    binary .add flipped one w

def resized (e : Expr) (w : Width) : Except Misfit Expr :=
  match e with
  | .const c => do
    let c ← resize c w
    return .const c
  | e => return e.resized w

def withZeroRight (op : BinaryOp) (l : Expr) (w : Width) : Except Misfit Expr :=
  match op with
  | .and => return .const (.zero w)
  | .add | .sub | .or | .xor | .shl | .shr => resized l w

def withZeroLeft (op : BinaryOp) (zero r : Expr) (w : Width) : Except Misfit Expr :=
  match op with
  | .add | .or | .xor => resized r w
  | .and | .shl | .shr => return .const (.zero w)
  | .sub => return .binary .sub zero r w

def shiftsOut (amount : Constant) (w : Width) : Except Misfit Bool := do
  match ← toWord? amount with
  | none => return true
  | some n => do
    let bits ← mul w.bytes 8
    return decide (bits ≤ n)

def foldBinary (op : BinaryOp) (l r : Expr) (w : Width) : Except Misfit Expr :=
  match l.asConst?, r.asConst? with
  | some a, some b => do
    let c ← binary op a b w
    return .const c
  | none, some b =>
    if b.isZero then withZeroRight op l w
    else if op.isShift then do
      let out ← shiftsOut b w
      return (if out then .const (.zero w) else .binary op l r w)
    else return .binary op l r w
  | some a, none => if a.isZero then withZeroLeft op l r w else return .binary op l r w
  | none, none => return .binary op l r w

def foldUnary (op : UnaryOp) (x : Expr) (w : Width) : Except Misfit Expr :=
  match x.asConst? with
  | some a => do
    let c ← unary op a w
    return .const c
  | none => return .unary op x w

def fold : Expr → Except Misfit Expr
  | .const c => return .const c
  | .symbol name w => return .symbol name w
  | .unary op x w => do
    let x ← fold x
    foldUnary op x w
  | .binary op l r w => do
    let l ← fold l
    let r ← fold r
    foldBinary op l r w
  | .resize x w => do
    let x ← fold x
    resized x w

variable {a b c : Constant} {w : Width} {n : Nat}

theorem first_min (bytes : List UInt8) (n : Nat) : first bytes (min bytes.length n) = .ok (bytes.take n) := by
  rw [first, bind_ok (within_ok (Nat.min_le_left ..)), Nat.min_comm, ← List.take_eq_take_min]
  rfl

theorem constant_octets (c : Constant) : constant c.octets = .ok c := by
  have hw : Address.widthOf c.octets.length = .ok c.width := by
    rw [length_octets]
    exact Address.widthOf_ok c.width.fits
  have hvalue : Constant.ofNat c.width (value c.octets) = c := by
    rw [value_octets]
    exact Constant.resize_self c
  rw [constant, bind_ok (fault_ok hw), hvalue]
  rfl

theorem constant_of_computes {loop : List UInt8} (h : Computes c w loop n) : constant loop = .ok c := by
  rw [← h.octets, constant_octets]

theorem resize_ok (c : Constant) (w : Width) : resize c w = .ok (c.resize w) := by
  unfold resize
  split
  · rename_i hw
    subst hw
    rw [Constant.resize_self]
    rfl
  · rw [bind_ok (first_min c.octets w.bytes)]
    have hloop : c.octets.take w.bytes ++ List.replicate (w.bytes - (c.octets.take w.bytes).length) 0 =
        c.operand w := by
      rw [operand, LittleEndian.resized, List.length_take]
      congr 2
      omega
    rw [hloop]
    exact constant_of_computes (computes_resize c w)

theorem octets_resize (c : Constant) (w : Width) : (c.resize w).octets = c.operand w := (computes_resize c w).octets

theorem operand_of_width (h : c.width = w) : c.operand w = c.octets := by
  subst h
  rw [← octets_resize, Constant.resize_self]

theorem toWord?_ok (c : Constant) : toWord? c = .ok (word? c.octets) := by
  unfold toWord? word?
  split
  · rfl
  · rw [bind_ok (first_min c.octets 8)]
    rfl

theorem addCarry_ok {carry : UInt16} (h : carry.toNat ≤ 1) (xs ys : List UInt8) :
    addCarry carry xs ys = .ok (LittleEndian.addCarry carry xs ys) := by
  induction xs generalizing ys carry with
  | nil => rfl
  | cons x xs ih =>
    cases ys with
    | nil => rfl
    | cons y ys =>
      obtain ⟨hsum, -, hnext⟩ := carry_step x y h
      have hx := x.toNat_lt
      have hy := y.toNat_lt
      have hpair : (x.toUInt16 + y.toUInt16).toNat = x.toNat + y.toNat := by
        simp only [UInt16.toNat_add, UInt8.toNat_toUInt16]
        omega
      have hfirst : add16 x.toUInt16 y.toUInt16 = .ok _ := if_pos (by simp only [UInt8.toNat_toUInt16]; omega)
      have hsecond : add16 (x.toUInt16 + y.toUInt16) carry = .ok _ := if_pos (by omega)
      rw [addCarry, bind_ok (overflow_ok hfirst), bind_ok (overflow_ok hsecond), bind_ok (ih hnext ys)]
      rfl

theorem addComplement_ok (xs ys : List UInt8) :
    addComplement xs ys = .ok (LittleEndian.addCarry 1 xs (complement ys)) :=
  addCarry_ok (by decide) xs (complement ys)

theorem bytewise_ok (f : UInt8 → UInt8 → UInt8) (xs ys : List UInt8) :
    bytewise f xs ys = .ok (List.zipWith f xs ys) :=
  rfl

theorem pairwise_ok {f : List UInt8 → List UInt8 → Except Misfit (List UInt8)} {loop : List UInt8}
    (hf : f (a.operand w) (b.operand w) = .ok loop) (h : Computes c w loop n) : pairwise f a b w = .ok c := by
  rw [pairwise, bind_ok (resize_ok a w), bind_ok (resize_ok b w), octets_resize, octets_resize, bind_ok hf,
    constant_of_computes h]

theorem shifted_ok {f : List UInt8 → Nat → Except Misfit (List UInt8)}
    (h : ∃ bytes, f (a.operand w) b.amount = .ok bytes ∧ Computes c w bytes n) : shifted f a b w = .ok c := by
  obtain ⟨bytes, hbytes, hc⟩ := h
  rw [shifted, bind_ok (resize_ok a w), bind_ok (toWord?_ok b), octets_resize]
  exact (bind_ok hbytes _).trans (constant_of_computes hc)

theorem binary_ok (op : BinaryOp) (a b : Constant) (w : Width) : binary op a b w = .ok (a.binary op b w) := by
  cases op with
  | add => exact pairwise_ok (addCarry_ok (by decide) ..) (computes_add a b w)
  | sub => exact pairwise_ok (addComplement_ok ..) (computes_sub a b w)
  | and => exact pairwise_ok (bytewise_ok ..) (computes_bitwise rfl byte_and rfl)
  | or => exact pairwise_ok (bytewise_ok ..) (computes_bitwise rfl LittleEndian.byte_or rfl)
  | xor => exact pairwise_ok (bytewise_ok ..) (computes_bitwise rfl byte_xor rfl)
  | shl => exact shifted_ok (computes_shl a b w)
  | shr => exact shifted_ok (computes_shr a b w)

theorem unary_ok (op : UnaryOp) (a : Constant) (w : Width) : unary op a w = .ok (a.unary op w) := by
  have hflipped := constant_of_computes (computes_not a w)
  rw [unary, bind_ok (resize_ok a w), octets_resize, bind_ok hflipped]
  cases op with
  | not => rfl
  | neg =>
    dsimp only
    have hword : (Constant.ofNat .w64 1).octets = digits 8 1 := toList_ofNat 8 1
    have hone : ((Constant.ofNat .w64 1).resize w).octets = LittleEndian.resized w.bytes (digits 8 1) := by
      rw [octets_resize, operand, hword]
    have hsum := computes_neg a w
    rw [← hone, ← (computes_not a w).octets, ← operand_of_width (c := a.unary .not w) rfl,
      ← operand_of_width (width_resize _ w)] at hsum
    rw [bind_ok (resize_ok _ w)]
    exact pairwise_ok (addCarry_ok (by decide) ..) hsum

theorem resized_ok (e : Expr) (w : Width) : resized e w = .ok (e.resized w) := by
  cases e with
  | const c =>
    rw [resized, bind_ok (resize_ok c w), Expr.resized_const]
    rfl
  | symbol _ _ => rfl
  | unary _ _ _ => rfl
  | binary _ _ _ _ => rfl
  | resize _ _ => rfl

theorem withZeroRight_ok (op : BinaryOp) (l : Expr) (w : Width) :
    withZeroRight op l w = .ok (Expr.withZeroRight op l w) := by
  cases op with
  | and => rfl
  | add | sub | or | xor | shl | shr => exact resized_ok l w

theorem withZeroLeft_ok (op : BinaryOp) (zero r : Expr) (w : Width) :
    withZeroLeft op zero r w = .ok (Expr.withZeroLeft op zero r w) := by
  cases op with
  | add | or | xor => exact resized_ok r w
  | and | shl | shr | sub => rfl

theorem shiftsOut_ok (amount : Constant) (w : Width) : shiftsOut amount w = .ok (Expr.shiftsOut amount w) := by
  have hfits := w.fits
  rw [shiftsOut, bind_ok (toWord?_ok amount), word?_eq, value_octets, Expr.shiftsOut]
  split
  · rename_i h
    split at h
    · cases h
    · rename_i hword
      rw [decide_eq_true (show w.bits ≤ amount.value by unfold Width.bits; omega)]
      rfl
  · rename_i n h
    split at h
    · obtain rfl := Option.some.inj h
      rw [bind_ok (overflow_ok (mul_ok (bits_le_last hfits))), Nat.mul_comm]
      rfl
    · cases h

theorem foldBinary_ok (op : BinaryOp) (l r : Expr) (w : Width) :
    foldBinary op l r w = .ok (Expr.foldBinary op l r w) := by
  unfold foldBinary Expr.foldBinary
  cases l.asConst? with
  | none =>
    cases r.asConst? with
    | none => rfl
    | some b =>
      dsimp only
      by_cases hzero : b.isZero
      · rw [if_pos hzero, if_pos hzero]
        exact withZeroRight_ok op l w
      · rw [if_neg hzero, if_neg hzero]
        cases hshift : op.isShift with
        | false => rfl
        | true =>
          rw [if_pos rfl, bind_ok (shiftsOut_ok b w), Bool.true_and]
          rfl
  | some a =>
    cases r.asConst? with
    | none =>
      dsimp only
      by_cases hzero : a.isZero
      · rw [if_pos hzero, if_pos hzero]
        exact withZeroLeft_ok op l r w
      · rw [if_neg hzero, if_neg hzero]
        rfl
    | some b =>
      dsimp only
      rw [bind_ok (binary_ok op a b w)]
      rfl

theorem foldUnary_ok (op : UnaryOp) (x : Expr) (w : Width) : foldUnary op x w = .ok (Expr.foldUnary op x w) := by
  unfold foldUnary Expr.foldUnary
  cases x.asConst? with
  | none => rfl
  | some a =>
    dsimp only
    rw [bind_ok (unary_ok op a w)]
    rfl

theorem fold_ok (e : Expr) : fold e = .ok e.fold := by
  induction e with
  | const c => rfl
  | symbol name w => rfl
  | unary op x w ih =>
    rw [fold, bind_ok ih]
    exact foldUnary_ok op x.fold w
  | binary op l r w ihl ihr =>
    rw [fold, bind_ok ihl, bind_ok ihr]
    exact foldBinary_ok op l.fold r.fold w
  | resize x w ih =>
    rw [fold, bind_ok ih]
    exact resized_ok x.fold w

end Checked.Folding

end LayeredMemory
