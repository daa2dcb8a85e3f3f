import LayeredMemory.Proofs.Expr.Folding

/-!
The normal form that folding reaches. An expression is reduced if none of its nodes is an operation on constants only or
one that a constant operand decides. Folding gives a reduced expression in one pass from the leaves up: an operation that
gives way to an operand may put a resize around it, and this is never a new redex.
-/

namespace LayeredMemory.Expr

/-- A node that need not stay: its operands are constants, its operand has the width already, or a zero or an oversized
shift decides it. A difference from zero has to stay. -/
inductive Redex : Expr → Prop
  | unary {op : UnaryOp} {a : Constant} {w : Width} : Redex (unary op (const a) w)
  | resize {a : Constant} {w : Width} : Redex (resize (const a) w)
  | sameWidth {x : Expr} {w : Width} (h : x.width = w) : Redex (resize x w)
  | binary {op : BinaryOp} {a b : Constant} {w : Width} : Redex (binary op (const a) (const b) w)
  | zeroRight {op : BinaryOp} {l : Expr} {b : Constant} {w : Width} (h : b.value = 0) : Redex (binary op l (const b) w)
  | shiftedOut {op : BinaryOp} {l : Expr} {b : Constant} {w : Width} (hop : op.isShift = true)
      (h : w.bits ≤ b.value) : Redex (binary op l (const b) w)
  | zeroLeft {op : BinaryOp} {a : Constant} {r : Expr} {w : Width} (hop : op ≠ .sub) (h : a.value = 0) :
      Redex (binary op (const a) r w)

def nodes : Expr → List Expr
  | const c => [const c]
  | symbol name w => [symbol name w]
  | unary op x w => unary op x w :: x.nodes
  | binary op l r w => binary op l r w :: (l.nodes ++ r.nodes)
  | resize x w => resize x w :: x.nodes

def Reduced (e : Expr) : Prop := ∀ x ∈ e.nodes, ¬ Redex x

variable {op : BinaryOp} {a : Constant} {e x l r : Expr} {w : Width}

theorem reduced_const (c : Constant) : Reduced (const c) := by
  intro x hx
  obtain rfl := List.mem_singleton.1 hx
  rintro ⟨⟩

theorem reduced_symbol (name : String) (w : Width) : Reduced (symbol name w) := by
  intro x hx
  obtain rfl := List.mem_singleton.1 hx
  rintro ⟨⟩

theorem reduced_unary {op : UnaryOp} : Reduced (unary op x w) ↔ ¬ Redex (unary op x w) ∧ Reduced x :=
  List.forall_mem_cons

theorem reduced_binary :
    Reduced (binary op l r w) ↔ ¬ Redex (binary op l r w) ∧ Reduced l ∧ Reduced r :=
  List.forall_mem_cons.trans (and_congr_right fun _ => List.forall_mem_append)

theorem reduced_resize : Reduced (resize x w) ↔ ¬ Redex (resize x w) ∧ Reduced x :=
  List.forall_mem_cons

theorem resized_cases (x : Expr) (w : Width) :
    x.resized w = x ∨ (∃ c, x.resized w = const c) ∨ x.resized w = resize x w ∧ ¬ Redex (resize x w) := by
  by_cases hwidth : x.width = w
  · exact .inl (resized_of_eq hwidth)
  · cases x with
    | const c => exact .inr (.inl ⟨_, resized_const c w⟩)
    | _ =>
      refine .inr (.inr ⟨if_neg hwidth, fun hredex => ?_⟩)
      cases hredex with
      | sameWidth hw => exact hwidth hw

theorem reduced_resized (h : Reduced x) (w : Width) : Reduced (x.resized w) := by
  obtain hkept | ⟨c, hc⟩ | ⟨hnode, hredex⟩ := resized_cases x w
  · rw [hkept]
    exact h
  · rw [hc]
    exact reduced_const c
  · rw [hnode]
    exact reduced_resize.2 ⟨hredex, h⟩

theorem reduced_foldUnary {op : UnaryOp} (h : Reduced x) : Reduced (foldUnary op x w) := by
  unfold foldUnary
  split
  · exact reduced_const _
  · rename_i hx
    refine reduced_unary.2 ⟨fun hredex => ?_, h⟩
    cases hredex
    cases hx

theorem reduced_withZeroRight (h : Reduced l) : Reduced (withZeroRight op l w) := by
  cases op with
  | and => exact reduced_const _
  | _ => exact reduced_resized h w

theorem reduced_withZeroLeft (h : Reduced r) (hr : r.asConst? = none) : Reduced (withZeroLeft op (const a) r w) := by
  cases op with
  | add | or | xor => exact reduced_resized h w
  | and | shl | shr => exact reduced_const _
  | sub =>
    refine reduced_binary.2 ⟨fun hredex => ?_, reduced_const a, h⟩
    cases hredex with
    | zeroLeft hop => exact hop rfl
    | _ => cases hr

theorem reduced_foldBinary (hl : Reduced l) (hr : Reduced r) : Reduced (foldBinary op l r w) := by
  unfold foldBinary
  split
  · exact reduced_const _
  · rename_i b hnone hb
    obtain rfl := eq_const_of_asConst? hb
    split
    · exact reduced_withZeroRight hl
    · rename_i hzero
      split
      · exact reduced_const _
      · rename_i hstay
        refine reduced_binary.2 ⟨fun hredex => ?_, hl, hr⟩
        cases hredex with
        | binary | zeroLeft => cases hnone
        | zeroRight h => exact hzero (beq_iff_eq.2 h)
        | shiftedOut hop h => exact hstay (Bool.and_eq_true_iff.2 ⟨hop, decide_eq_true h⟩)
  · rename_i a ha hnone
    obtain rfl := eq_const_of_asConst? ha
    split
    · exact reduced_withZeroLeft hr hnone
    · rename_i hzero
      refine reduced_binary.2 ⟨fun hredex => ?_, hl, hr⟩
      cases hredex with
      | zeroLeft hop h => exact hzero (beq_iff_eq.2 h)
      | _ => cases hnone
  · rename_i hleft hright
    refine reduced_binary.2 ⟨fun hredex => ?_, hl, hr⟩
    cases hredex with
    | zeroLeft => cases hleft
    | _ => cases hright

theorem reduced_fold (e : Expr) : Reduced e.fold := by
  induction e with
  | const c => exact reduced_const c
  | symbol name w => exact reduced_symbol name w
  | unary op x w ih => exact reduced_foldUnary ih
  | binary op l r w ihl ihr => exact reduced_foldBinary ihl ihr
  | resize x w ih => exact reduced_resized ih w

theorem foldUnary_of_not_redex {op : UnaryOp} (h : ¬ Redex (unary op x w)) : foldUnary op x w = unary op x w := by
  obtain ⟨c, rfl, -⟩ | hkept := foldUnary_cases op x w
  · exact absurd .unary h
  · exact hkept

theorem foldBinary_of_not_redex (h : ¬ Redex (binary op l r w)) : foldBinary op l r w = binary op l r w := by
  unfold foldBinary
  split
  · rename_i a b ha hb
    obtain rfl := eq_const_of_asConst? ha
    obtain rfl := eq_const_of_asConst? hb
    exact absurd .binary h
  · rename_i b _ hb
    obtain rfl := eq_const_of_asConst? hb
    split
    · rename_i hzero
      exact absurd (.zeroRight (beq_iff_eq.1 hzero)) h
    · split
      · rename_i hout
        obtain ⟨hop, hbits⟩ := Bool.and_eq_true_iff.1 hout
        exact absurd (.shiftedOut hop (of_decide_eq_true hbits)) h
      · rfl
  · rename_i a ha _
    obtain rfl := eq_const_of_asConst? ha
    split
    · rename_i hzero
      by_cases hop : op = .sub
      · rw [hop]
        rfl
      · exact absurd (.zeroLeft hop (beq_iff_eq.1 hzero)) h
    · rfl
  · rfl

theorem resized_of_not_redex (h : ¬ Redex (resize x w)) : x.resized w = resize x w := by
  have hwidth : x.width ≠ w := fun hw => h (.sameWidth hw)
  unfold resized
  rw [if_neg hwidth]
  cases x with
  | const c => exact absurd .resize h
  | _ => rfl

theorem fold_of_reduced (h : Reduced e) : e.fold = e := by
  induction e with
  | const c => rfl
  | symbol name w => rfl
  | unary op x w ih =>
    obtain ⟨hnode, hx⟩ := reduced_unary.1 h
    rw [fold, ih hx, foldUnary_of_not_redex hnode]
  | binary op l r w ihl ihr =>
    obtain ⟨hnode, hl, hr⟩ := reduced_binary.1 h
    rw [fold, ihl hl, ihr hr, foldBinary_of_not_redex hnode]
  | resize x w ih =>
    obtain ⟨hnode, hx⟩ := reduced_resize.1 h
    rw [fold, ih hx, resized_of_not_redex hnode]

theorem fold_eq_self_iff : e.fold = e ↔ Reduced e :=
  ⟨fun h => h ▸ reduced_fold e, fold_of_reduced⟩

theorem fold_fold (e : Expr) : e.fold.fold = e.fold := fold_of_reduced (reduced_fold e)

theorem depth_resized_le (x : Expr) (w : Width) : (x.resized w).depth ≤ 1 + x.depth := by
  obtain hkept | ⟨c, hc⟩ | ⟨hnode, -⟩ := resized_cases x w
  · rw [hkept]
    exact Nat.le_add_left _ _
  · rw [hc]
    exact Nat.zero_le _
  · rw [hnode]
    exact Nat.le_refl _

theorem depth_foldUnary_le (op : UnaryOp) (x : Expr) (w : Width) : (foldUnary op x w).depth ≤ 1 + x.depth := by
  obtain ⟨c, -, h⟩ | h := foldUnary_cases op x w
  · rw [h]
    exact Nat.zero_le _
  · rw [h]
    exact Nat.le_refl _

theorem depth_foldBinary_le (op : BinaryOp) (l r : Expr) (w : Width) :
    (foldBinary op l r w).depth ≤ 1 + max l.depth r.depth := by
  have hl := depth_resized_le l w
  have hr := depth_resized_le r w
  obtain ⟨c, -, h⟩ | h | h | h := foldBinary_cases op l r w
  · rw [h]
    exact Nat.zero_le _
  · rw [h]
    omega
  · rw [h]
    omega
  · rw [h]
    exact Nat.le_refl _

theorem depth_fold_le (e : Expr) : e.fold.depth ≤ e.depth := by
  induction e with
  | const c => exact Nat.le_refl _
  | symbol name w => exact Nat.le_refl _
  | unary op x w ih => exact Nat.le_trans (depth_foldUnary_le op x.fold w) (Nat.add_le_add_left ih 1)
  | binary op l r w ihl ihr =>
    have hnode := depth_foldBinary_le op l.fold r.fold w
    rw [fold, depth]
    omega
  | resize x w ih => exact Nat.le_trans (depth_resized_le x.fold w) (Nat.add_le_add_left ih 1)

theorem names_eq_nil_of_symbols (h : e.symbols = []) : e.names = [] := by
  apply List.eq_nil_iff_forall_not_mem.2
  intro name hname
  rw [← mem_symbols, h] at hname
  cases hname

theorem fold_eq_evaluate (h : e.names = []) (bind : Binding) :
    ∃ c, e.fold = const c ∧ e.evaluate bind = some c := by
  have hfold : e.fold.names = [] := List.subset_nil.1 (h ▸ names_fold_subset e)
  obtain ⟨c, hc⟩ := fold_eq_const_of_names hfold
  obtain ⟨d, hd⟩ : ∃ d, e.evaluate bind = some d := by
    apply isSome_evaluate_of_names
    rw [h]
    exact fun name hname => absurd hname List.not_mem_nil
  have hfolded := evaluate_fold hd
  rw [hc] at hfolded
  exact ⟨c, hc, hd.trans hfolded.symm⟩

theorem fold_reaches_normal_form (e : Expr) :
    Reduced e.fold ∧ (e.fold = e ↔ Reduced e) ∧ e.fold.fold = e.fold ∧ e.fold.depth ≤ e.depth ∧
      (e.symbols = [] → ∃ c, e.fold = const c ∧ e.evaluate (fun _ => none) = some c) := by
  refine ⟨reduced_fold e, fold_eq_self_iff, fold_fold e, depth_fold_le e, fun h => ?_⟩
  exact fold_eq_evaluate (names_eq_nil_of_symbols h) _

theorem fold_reaches_normal_form_closed :
    let e : Expr := binary .shl (binary .sub (const (.ofNat .w8 0)) (const (.ofNat .w8 3)) .w16)
      (resize (const (.ofNat .w8 4)) .w32) .w16
    e.symbols = [] ∧ e.fold = const (.ofNat .w16 0xffd0) ∧
      e.evaluate (fun _ => none) = some (.ofNat .w16 0xffd0) := by
  intro e
  have hsymbols : e.symbols = [] := by cbv
  have hfold : e.fold = const (.ofNat .w16 0xffd0) := by decide
  obtain ⟨-, -, -, -, hclosed⟩ := fold_reaches_normal_form e
  obtain ⟨c, hc, hvalue⟩ := hclosed hsymbols
  obtain rfl := const.inj (hc.symm.trans hfold)
  exact ⟨hsymbols, hfold, hvalue⟩

end LayeredMemory.Expr
