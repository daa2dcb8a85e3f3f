import LayeredMemory.Proofs.Expr.Evaluation

namespace LayeredMemory.Expr

variable {bind : Binding} {e x l r : Expr} {w : Width}

theorem evaluate_resized_eq_map (e : Expr) (w : Width) (bind : Binding) :
    (e.resized w).evaluate bind = (e.evaluate bind).map (·.resize w) := by
  cases h : e.evaluate bind with
  | some c => exact evaluate_resized w h
  | none =>
    unfold resized
    split
    · exact h
    · cases e with
      | const c => cases h
      | _ =>
        rw [evaluate, h]
        rfl

@[simp] theorem names_resized (e : Expr) (w : Width) : (e.resized w).names = e.names := by
  unfold resized
  split
  · rfl
  · cases e with
    | _ => rfl

theorem foldBinary_cases (op : BinaryOp) (l r : Expr) (w : Width) :
    (∃ c, c.width = w ∧ foldBinary op l r w = const c) ∨ foldBinary op l r w = l.resized w ∨
      foldBinary op l r w = r.resized w ∨ foldBinary op l r w = binary op l r w := by
  unfold foldBinary
  split
  · exact .inl ⟨_, rfl, rfl⟩
  · split
    · cases op with
      | and => exact .inl ⟨_, rfl, rfl⟩
      | _ => exact .inr (.inl rfl)
    · split
      · exact .inl ⟨_, rfl, rfl⟩
      · exact .inr (.inr (.inr rfl))
  · split
    · cases op with
      | add | or | xor => exact .inr (.inr (.inl rfl))
      | and | shl | shr => exact .inl ⟨_, rfl, rfl⟩
      | sub => exact .inr (.inr (.inr rfl))
    · exact .inr (.inr (.inr rfl))
  · exact .inr (.inr (.inr rfl))

theorem foldUnary_cases (op : UnaryOp) (x : Expr) (w : Width) :
    (∃ c, x = const c ∧ foldUnary op x w = const (c.unary op w)) ∨ foldUnary op x w = unary op x w := by
  unfold foldUnary
  split
  · rename_i c hc
    exact .inl ⟨c, eq_const_of_asConst? hc, rfl⟩
  · exact .inr rfl

theorem width_foldBinary (op : BinaryOp) (l r : Expr) (w : Width) : (foldBinary op l r w).width = w := by
  obtain ⟨c, hc, h⟩ | h | h | h := foldBinary_cases op l r w
  · rw [h]
    exact hc
  · rw [h, width_resized]
  · rw [h, width_resized]
  · rw [h]
    rfl

theorem width_foldUnary (op : UnaryOp) (x : Expr) (w : Width) : (foldUnary op x w).width = w := by
  obtain ⟨c, -, h⟩ | h := foldUnary_cases op x w
  · rw [h]
    rfl
  · rw [h]
    rfl

@[simp] theorem width_fold (e : Expr) : e.fold.width = e.width := by
  cases e with
  | const c => rfl
  | symbol name w => rfl
  | unary op x w => exact width_foldUnary op x.fold w
  | binary op l r w => exact width_foldBinary op l.fold r.fold w
  | resize x w => exact width_resized x.fold w

theorem names_foldUnary (op : UnaryOp) (x : Expr) (w : Width) : (foldUnary op x w).names = x.names := by
  obtain ⟨c, rfl, h⟩ | h := foldUnary_cases op x w
  · rw [h]
    rfl
  · rw [h]
    rfl

theorem names_foldBinary_subset (op : BinaryOp) (l r : Expr) (w : Width) :
    (foldBinary op l r w).names ⊆ l.names ++ r.names := by
  obtain ⟨c, -, h⟩ | h | h | h := foldBinary_cases op l r w
  · rw [h]
    exact List.nil_subset _
  · rw [h, names_resized]
    exact List.subset_append_left _ _
  · rw [h, names_resized]
    exact List.subset_append_right _ _
  · rw [h, names_binary]
    exact List.Subset.refl _

theorem names_fold_subset (e : Expr) : e.fold.names ⊆ e.names := by
  induction e with
  | const c => exact List.Subset.refl _
  | symbol name w => exact List.Subset.refl _
  | unary op x w ih =>
    rw [fold, names_foldUnary, names_unary]
    exact ih
  | binary op l r w ihl ihr =>
    rw [names_binary]
    intro name h
    rcases List.mem_append.1 (names_foldBinary_subset op l.fold r.fold w h) with h | h
    · exact List.mem_append_left _ (ihl h)
    · exact List.mem_append_right _ (ihr h)
  | resize x w ih =>
    rw [fold, names_resized, names_resize]
    exact ih

theorem resized_of_eq (h : e.width = w) : e.resized w = e := if_pos h

theorem resized_const (c : Constant) (w : Width) : (const c).resized w = const (c.resize w) := by
  unfold resized
  split
  · rename_i hw
    rw [← hw]
    exact congrArg const c.resize_self.symm
  · rfl

theorem fold_resized (e : Expr) (w : Width) : (e.resized w).fold = e.fold.resized w := by
  by_cases hw : e.width = w
  · rw [resized_of_eq hw, resized_of_eq ((width_fold e).trans hw)]
  · cases e with
    | const c =>
      rw [resized_const]
      exact (resized_const c w).symm
    | _ => exact congrArg fold (if_neg hw)

theorem fold_eq_const_of_names (h : e.fold.names = []) : ∃ c, e.fold = const c := by
  induction e with
  | const c => exact ⟨c, rfl⟩
  | symbol name w => cases h
  | unary op x w ih =>
    rw [fold, names_foldUnary] at h
    obtain ⟨c, hc⟩ := ih h
    rw [fold, hc]
    exact ⟨_, rfl⟩
  | binary op l r w ihl ihr =>
    rw [fold] at h ⊢
    obtain ⟨c, -, hf⟩ | hf | hf | hf := foldBinary_cases op l.fold r.fold w
    · exact ⟨c, hf⟩
    · rw [hf, names_resized] at h
      obtain ⟨c, hc⟩ := ihl h
      rw [hf, hc]
      exact ⟨_, resized_const c w⟩
    · rw [hf, names_resized] at h
      obtain ⟨c, hc⟩ := ihr h
      rw [hf, hc]
      exact ⟨_, resized_const c w⟩
    · rw [hf, names_binary, List.append_eq_nil_iff] at h
      obtain ⟨a, ha⟩ := ihl h.1
      obtain ⟨b, hb⟩ := ihr h.2
      rw [ha, hb]
      exact ⟨_, rfl⟩
  | resize x w ih =>
    rw [fold, names_resized] at h
    obtain ⟨c, hc⟩ := ih h
    rw [fold, hc]
    exact ⟨_, resized_const c w⟩

theorem fold_eq_const_iff : (∃ c, e.fold = const c) ↔ ∀ name, name ∉ e.fold.names := by
  constructor
  · rintro ⟨c, hc⟩ name h
    rw [hc] at h
    cases h
  · intro h
    exact fold_eq_const_of_names (List.eq_nil_iff_forall_not_mem.2 h)

theorem fold_preserves_meaning (e : Expr) (bind : Binding) :
    e.fold.width = e.width ∧ (∀ c, e.evaluate bind = some c → e.fold.evaluate bind = some c) ∧
      (∀ name ∈ e.fold.symbols, name ∈ e.symbols) ∧
      ∀ w, (e.resized w).evaluate bind = (e.evaluate bind).map (·.resize w) := by
  refine ⟨width_fold e, fun c hc => evaluate_fold hc, fun name h => ?_, fun w => ?_⟩
  · rw [mem_symbols] at h ⊢
    exact names_fold_subset e h
  · exact evaluate_resized_eq_map e w bind

end LayeredMemory.Expr
