namespace LayeredMemory

variable {α : Type} {p : α → Bool} {l before after : List α}

theorem forall_mem_dropWhile_not (h : l.Pairwise (fun x y => p y = true → p x = true)) :
    ∀ x ∈ l.dropWhile p, p x = false := by
  induction l with
  | nil => simp
  | cons x l ih =>
    obtain ⟨hx, hl⟩ := List.pairwise_cons.1 h
    rw [List.dropWhile_cons]
    split
    · exact ih hl
    · rename_i hp
      intro y hy
      rcases List.mem_cons.1 hy with rfl | hy
      · simpa using hp
      · apply Bool.eq_false_iff.2
        intro hpy
        exact hp (hx y hy hpy)

theorem filter_eq_takeWhile (h : l.Pairwise (fun x y => p y = true → p x = true)) : l.filter p = l.takeWhile p := by
  have hfirst : (l.takeWhile p).filter p = l.takeWhile p :=
    List.filter_eq_self.2 fun x hx => List.all_eq_true.1 List.all_takeWhile x hx
  have hrest : (l.dropWhile p).filter p = [] := by
    apply List.filter_eq_nil_iff.2
    intro x hx
    simp [forall_mem_dropWhile_not h x hx]
  calc l.filter p
    _ = (l.takeWhile p ++ l.dropWhile p).filter p := by rw [List.takeWhile_append_dropWhile]
    _ = l.takeWhile p := by rw [List.filter_append, hfirst, hrest, List.append_nil]

theorem takeWhile_between (hbefore : ∀ x ∈ before, p x = true) (hafter : ∀ x ∈ after, p x = false) :
    (before ++ after).takeWhile p = before := by
  rw [List.takeWhile_append_of_pos hbefore]
  cases after with
  | nil => exact List.append_nil _
  | cons x after => rw [List.takeWhile_cons, hafter x (by simp), if_neg Bool.false_ne_true, List.append_nil]

theorem dropWhile_between (hbefore : ∀ x ∈ before, p x = true) (hafter : ∀ x ∈ after, p x = false) :
    (before ++ after).dropWhile p = after := by
  rw [List.dropWhile_append_of_pos hbefore]
  cases after with
  | nil => rfl
  | cons x after => rw [List.dropWhile_cons, hafter x (by simp), if_neg Bool.false_ne_true]

theorem length_lt_between (before after : List α) (x : α) : before.length < (before ++ x :: after).length := by
  rw [List.length_append, List.length_cons]
  omega

theorem getElem_between {x : α} (h : before.length < (before ++ x :: after).length) :
    (before ++ x :: after)[before.length] = x := by
  rw [List.getElem_append_right (Nat.le_refl _)]
  simp only [Nat.sub_self, List.getElem_cons_zero]

theorem insertIdx_between (before after : List α) (x : α) :
    (before ++ after).insertIdx before.length x = before ++ x :: after := by
  induction before with
  | nil => rfl
  | cons b before ih => rw [List.cons_append, List.length_cons, List.insertIdx_succ_cons, ih, List.cons_append]

theorem Option.ext_of_isSome {r t : Option α} (h : r.isSome ↔ t.isSome)
    (heq : ∀ x y, r = some x → t = some y → x = y) : r = t := by
  cases r with
  | none =>
    cases t with
    | none => rfl
    | some y => cases h.2 rfl
  | some x =>
    cases t with
    | none => cases h.1 rfl
    | some y => rw [heq x y rfl rfl]

end LayeredMemory
