import LayeredMemory.Expr.Fold
import LayeredMemory.Proofs.Bytes

namespace LayeredMemory

namespace Expr

variable {bind : Binding}

def BoundBy (e : Expr) (bind : Binding) : Prop := ∀ name ∈ e.symbols, (bind name).isSome

theorem mem_distinct {name : String} {l : List String} : name ∈ distinct l ↔ name ∈ l := by
  fun_induction distinct l with
  | case1 s rest ih => simp [ih]
  | case2 s t rest hne ih => simp [ih]
  | case3 l => exact Iff.rfl

theorem mem_symbols {name : String} {e : Expr} : name ∈ e.symbols ↔ name ∈ e.names := by
  rw [symbols, mem_distinct, List.mem_mergeSort]

theorem isSome_evaluate_of_names {e : Expr} (h : ∀ name ∈ e.names, (bind name).isSome) :
    ∃ c, e.evaluate bind = some c := by
  induction e with
  | const c => exact ⟨c, rfl⟩
  | symbol name w =>
    obtain ⟨c, hc⟩ := Option.isSome_iff_exists.1 (h name (by simp))
    exact ⟨c.resize w, by simp [evaluate, hc]⟩
  | unary op x w ih =>
    obtain ⟨a, ha⟩ := ih (by simpa using h)
    exact ⟨a.unary op w, by simp [evaluate, ha]⟩
  | binary op l r w ihl ihr =>
    rw [names_binary] at h
    obtain ⟨a, ha⟩ := ihl fun name hn => h name (List.mem_append_left _ hn)
    obtain ⟨b, hb⟩ := ihr fun name hn => h name (List.mem_append_right _ hn)
    exact ⟨a.binary op b w, by simp [evaluate, ha, hb]⟩
  | resize x w ih =>
    obtain ⟨a, ha⟩ := ih (by simpa using h)
    exact ⟨a.resize w, by simp [evaluate, ha]⟩

theorem BoundBy.evaluate {e : Expr} (h : e.BoundBy bind) : ∃ c, e.evaluate bind = some c :=
  isSome_evaluate_of_names fun name hn => h name (mem_symbols.2 hn)

theorem evaluate_unary {op : UnaryOp} {x : Expr} {w : Width} {c : Constant} :
    (unary op x w).evaluate bind = some c ↔ ∃ a, x.evaluate bind = some a ∧ a.unary op w = c := by
  simp [evaluate, Option.bind_eq_some_iff]

theorem evaluate_binary {op : BinaryOp} {l r : Expr} {w : Width} {c : Constant} :
    (binary op l r w).evaluate bind = some c ↔
      ∃ a b, l.evaluate bind = some a ∧ r.evaluate bind = some b ∧ a.binary op b w = c := by
  simp [evaluate, Option.bind_eq_some_iff]

theorem evaluate_resize {x : Expr} {w : Width} {c : Constant} :
    (resize x w).evaluate bind = some c ↔ ∃ a, x.evaluate bind = some a ∧ a.resize w = c := by
  simp [evaluate, Option.bind_eq_some_iff]

theorem width_of_evaluate {e : Expr} {c : Constant} (h : e.evaluate bind = some c) :
    c.width = e.width := by
  cases e with
  | const d => exact congrArg Constant.width (Option.some.inj h).symm
  | symbol name w =>
    obtain ⟨d, -, rfl⟩ := Option.map_eq_some_iff.1 h
    rfl
  | unary op x w =>
    obtain ⟨a, -, rfl⟩ := evaluate_unary.1 h
    rfl
  | binary op l r w =>
    obtain ⟨a, b, -, -, rfl⟩ := evaluate_binary.1 h
    rfl
  | resize x w =>
    obtain ⟨a, -, rfl⟩ := evaluate_resize.1 h
    rfl

theorem eq_const_of_asConst? {e : Expr} {c : Constant} (h : e.asConst? = some c) : e = const c := by
  cases e with
  | const d => exact congrArg const (Option.some.inj h)
  | _ => cases h

@[simp] theorem width_resized (e : Expr) (w : Width) : (e.resized w).width = w := by
  unfold resized
  split
  · assumption
  · cases e <;> rfl

theorem evaluate_resized {e : Expr} {c : Constant} (w : Width) (h : e.evaluate bind = some c) :
    (e.resized w).evaluate bind = some (c.resize w) := by
  unfold resized
  split
  · rename_i hw
    rw [← hw, ← width_of_evaluate h, c.resize_self]
    exact h
  · cases e with
    | const d => exact congrArg (fun c => some (Constant.resize c w)) (Option.some.inj h)
    | _ => exact evaluate_resize.2 ⟨c, h, rfl⟩

end Expr

namespace Constant

theorem eq_zero_of_value {c : Constant} {w : Width} (hw : c.width = w) (hv : c.value = 0) : c = zero w :=
  Constant.ext hw hv

theorem ofNat_zero (w : Width) : ofNat w 0 = zero w :=
  eq_zero_of_value rfl (by rw [value_ofNat, Nat.zero_mod])

theorem value_resize_of_zero {c : Constant} (h : c.value = 0) (w : Width) : (c.resize w).value = 0 := by
  rw [value_resize, h, Nat.zero_mod]

theorem ofNat_value_resize (c : Constant) (w : Width) : ofNat w (c.resize w).value = c.resize w :=
  resize_self (c.resize w)

theorem binary_zero_right {op : BinaryOp} {a b : Constant} (w : Width) (hop : op ≠ .and)
    (h : b.value = 0) : a.binary op b w = a.resize w := by
  have hb := value_resize_of_zero h w
  have shifted (f : Nat → Nat) (hf : f (a.resize w).value = (a.resize w).value) :
      ofNat w (if b.value < w.bits then f (a.resize w).value else 0) = a.resize w := by
    split
    · rw [hf, ofNat_value_resize]
    · rename_i hbits
      have hx : (a.resize w).value < 2 ^ w.bits := (a.resize w).fits
      rw [show w.bits = 0 by omega] at hx
      rw [ofNat_zero]
      exact (eq_zero_of_value (width_resize a w) (by omega)).symm
  cases op with
  | add => simp only [binary, hb, Nat.add_zero, ofNat_value_resize]
  | sub => simp only [binary, hb, Nat.zero_le, ↓reduceIte, Nat.sub_zero, ofNat_value_resize]
  | and => exact absurd rfl hop
  | or => simp only [binary, hb, Nat.or_zero, ofNat_value_resize]
  | xor => simp only [binary, hb, Nat.xor_zero, ofNat_value_resize]
  | shl => exact shifted (· <<< b.value) (by rw [h, Nat.shiftLeft_zero])
  | shr => exact shifted (· >>> b.value) (by rw [h, Nat.shiftRight_zero])

theorem and_zero_right {a b : Constant} (w : Width) (h : b.value = 0) :
    a.binary .and b w = zero w := by
  simp only [binary, value_resize_of_zero h w, Nat.and_zero, ofNat_zero]

theorem binary_zero_left {op : BinaryOp} {a b : Constant} (w : Width)
    (hop : op = .add ∨ op = .or ∨ op = .xor) (h : a.value = 0) : a.binary op b w = b.resize w := by
  have ha := value_resize_of_zero h w
  obtain rfl | rfl | rfl := hop
  · simp only [binary, ha, Nat.zero_add, ofNat_value_resize]
  · simp only [binary, ha, Nat.zero_or, ofNat_value_resize]
  · simp only [binary, ha, Nat.zero_xor, ofNat_value_resize]

theorem binary_eq_zero_of_left {op : BinaryOp} {a b : Constant} (w : Width)
    (hop : op = .and ∨ op = .shl ∨ op = .shr) (h : a.value = 0) : a.binary op b w = zero w := by
  have ha := value_resize_of_zero h w
  obtain rfl | rfl | rfl := hop
  · simp only [binary, ha, Nat.zero_and, ofNat_zero]
  · simp only [binary, ha, Nat.zero_shiftLeft, ite_self, ofNat_zero]
  · simp only [binary, ha, Nat.zero_shiftRight, ite_self, ofNat_zero]

theorem binary_shifted_out {op : BinaryOp} {a b : Constant} {w : Width} (hop : op.isShift = true)
    (h : w.bits ≤ b.value) : a.binary op b w = zero w := by
  cases op with
  | shl => simp only [binary, if_neg (Nat.not_lt.2 h), ofNat_zero]
  | shr => simp only [binary, if_neg (Nat.not_lt.2 h), ofNat_zero]
  | _ => cases hop

end Constant

namespace Expr

variable {bind : Binding}

theorem evaluate_foldUnary {op : UnaryOp} {x : Expr} {a : Constant} (w : Width)
    (h : x.evaluate bind = some a) : (foldUnary op x w).evaluate bind = some (a.unary op w) := by
  unfold foldUnary
  split
  · rename_i c hc
    obtain rfl := eq_const_of_asConst? hc
    obtain rfl := Option.some.inj h
    rfl
  · exact evaluate_unary.2 ⟨a, h, rfl⟩

theorem evaluate_withZeroRight {op : BinaryOp} {l : Expr} {a b : Constant} (w : Width)
    (hl : l.evaluate bind = some a) (hb : b.value = 0) :
    (withZeroRight op l w).evaluate bind = some (a.binary op b w) := by
  by_cases hop : op = .and
  · subst hop
    rw [Constant.and_zero_right w hb]
    rfl
  · rw [Constant.binary_zero_right w hop hb, ← evaluate_resized w hl]
    cases op with
    | and => exact absurd rfl hop
    | _ => rfl

theorem evaluate_withZeroLeft {op : BinaryOp} {r : Expr} {a b : Constant} (w : Width)
    (hr : r.evaluate bind = some b) (ha : a.value = 0) :
    (withZeroLeft op (const a) r w).evaluate bind = some (a.binary op b w) := by
  cases op with
  | add | or | xor =>
    rw [Constant.binary_zero_left w (by simp) ha]
    exact evaluate_resized w hr
  | and | shl | shr =>
    rw [Constant.binary_eq_zero_of_left w (by simp) ha]
    rfl
  | sub => exact evaluate_binary.2 ⟨a, b, rfl, hr, rfl⟩

theorem evaluate_foldBinary {op : BinaryOp} {l r : Expr} {a b : Constant} (w : Width)
    (hl : l.evaluate bind = some a) (hr : r.evaluate bind = some b) :
    (foldBinary op l r w).evaluate bind = some (a.binary op b w) := by
  have kept : (binary op l r w).evaluate bind = some (a.binary op b w) :=
    evaluate_binary.2 ⟨a, b, hl, hr, rfl⟩
  unfold foldBinary
  split
  · rename_i x y hx hy
    obtain rfl := eq_const_of_asConst? hx
    obtain rfl := eq_const_of_asConst? hy
    obtain rfl := Option.some.inj hl
    obtain rfl := Option.some.inj hr
    rfl
  · rename_i y _ hy
    obtain rfl := eq_const_of_asConst? hy
    obtain rfl := Option.some.inj hr
    split
    · rename_i hzero
      exact evaluate_withZeroRight w hl (by simpa [Constant.isZero] using hzero)
    · split
      · rename_i hout
        rw [Bool.and_eq_true] at hout
        rw [Constant.binary_shifted_out hout.1 (of_decide_eq_true hout.2)]
        rfl
      · exact kept
  · rename_i x hx _
    obtain rfl := eq_const_of_asConst? hx
    obtain rfl := Option.some.inj hl
    split
    · rename_i hzero
      exact evaluate_withZeroLeft w hr (by simpa [Constant.isZero] using hzero)
    · exact kept
  · exact kept

theorem evaluate_fold {e : Expr} {c : Constant} (h : e.evaluate bind = some c) :
    e.fold.evaluate bind = some c := by
  induction e generalizing c with
  | const d => exact h
  | symbol name w => exact h
  | unary op x w ih =>
    obtain ⟨a, ha, rfl⟩ := evaluate_unary.1 h
    exact evaluate_foldUnary w (ih ha)
  | binary op l r w ihl ihr =>
    obtain ⟨a, b, ha, hb, rfl⟩ := evaluate_binary.1 h
    exact evaluate_foldBinary w (ihl ha) (ihr hb)
  | resize x w ih =>
    obtain ⟨a, ha, rfl⟩ := evaluate_resize.1 h
    exact evaluate_resized w (ih ha)

end Expr

end LayeredMemory
