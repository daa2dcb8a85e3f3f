import LayeredMemory.Proofs.IntervalSet.Intersection

set_option linter.unusedSectionVars false

namespace LayeredMemory.IntervalSet

variable {α : Type} [LE α] [LT α] [DecidableLE α] [DecidableLT α] [Std.IsLinearOrder α] [Std.LawfulOrderLT α]
  {s t : IntervalSet α} {i : Interval α} {l m found seen : List (Interval α)} {p : α}

def add (found : List (Interval α)) (i : Interval α) : List (Interval α) :=
  if i.Nonempty then push i found else found

def collect (l : List (Interval α)) : List (Interval α) := (l.foldl add []).reverse

theorem canonical_reverse_cons :
    Canonical (i :: found).reverse ↔ i.lo < i.hi ∧ (∀ j ∈ found, j.hi < i.lo) ∧ Canonical found.reverse := by
  simp only [Canonical, List.reverse_cons, List.pairwise_append, List.mem_append, List.mem_reverse,
    List.mem_singleton, List.pairwise_singleton, forall_eq, true_and]
  constructor
  · rintro ⟨hne, hfound, hgap⟩
    exact ⟨hne i (.inr rfl), hgap, fun j hj => hne j (.inl hj), hfound⟩
  · rintro ⟨hi, hgap, hne, hfound⟩
    exact ⟨fun j hj => hj.elim (hne j) (fun h => h ▸ hi), hfound, hgap⟩

theorem canonical_push (hi : i.lo < i.hi) (h : Canonical found.reverse) : Canonical (push i found).reverse := by
  cases found with
  | nil => exact canonical_reverse_cons.2 ⟨hi, by simp, .nil⟩
  | cons last found =>
    obtain ⟨hlast, hgap, hfound⟩ := canonical_reverse_cons.1 h
    rw [push]
    split
    · split
      · rename_i hextend
        exact canonical_reverse_cons.2 ⟨Std.lt_trans hlast hextend, hgap, hfound⟩
      · exact h
    · rename_i hapart
      have hapart : last.hi < i.lo := Std.not_le.1 hapart
      refine canonical_reverse_cons.2 ⟨hi, fun j hj => ?_, h⟩
      rcases List.mem_cons.1 hj with rfl | hj
      · exact hapart
      · exact Std.lt_trans (hgap j hj) (Std.lt_trans hlast hapart)

/-- Only the interval found last can touch the next one, if none begins after it. -/
theorem covers_push (h : ∀ j ∈ found, j.lo ≤ i.lo) : Covers (push i found) p ↔ Covers found p ∨ p ∈ i := by
  cases found with
  | nil => simp [push]
  | cons last found =>
    have hlo : last.lo ≤ i.lo := h last (by simp)
    rw [push]
    split
    · split
      · simp only [Covers.cons, Interval.mem_iff]
        grind
      · simp only [Covers.cons, Interval.mem_iff]
        grind
    · rw [Covers.cons, or_comm]

theorem lo_of_mem_push {j : Interval α} (h : j ∈ push i found) : j.lo = i.lo ∨ ∃ k ∈ found, j.lo = k.lo := by
  cases found with
  | nil =>
    obtain rfl := List.mem_singleton.1 h
    exact .inl rfl
  | cons last found =>
    rw [push] at h
    split at h
    · split at h
      · rcases List.mem_cons.1 h with rfl | hj
        · exact .inr ⟨last, by simp, rfl⟩
        · exact .inr ⟨j, .tail _ hj, rfl⟩
      · exact .inr ⟨j, h, rfl⟩
    · rcases List.mem_cons.1 h with rfl | hj
      · exact .inl rfl
      · exact .inr ⟨j, hj, rfl⟩

structure Swept (seen found : List (Interval α)) : Prop where
  canonical : Canonical found.reverse
  covers : ∀ p, Covers found p ↔ Covers seen p
  begins : ∀ j ∈ found, ∃ k ∈ seen, j.lo = k.lo

namespace Swept

theorem add (h : Swept seen found) (hi : ∀ j ∈ seen, j.lo ≤ i.lo) : Swept (seen ++ [i]) (add found i) := by
  unfold IntervalSet.add
  split
  · rename_i hne
    have hbefore : ∀ j ∈ found, j.lo ≤ i.lo := by
      intro j hj
      obtain ⟨k, hk, hlo⟩ := h.begins j hj
      exact hlo ▸ hi k hk
    refine ⟨canonical_push hne h.canonical, fun p => ?_, fun j hj => ?_⟩
    · rw [covers_push hbefore, h.covers, Covers.append, Covers.cons, or_iff_left Covers.nil]
    · rcases lo_of_mem_push hj with hlo | ⟨k, hk, hlo⟩
      · exact ⟨i, by simp, hlo⟩
      · obtain ⟨k', hk', hlo'⟩ := h.begins k hk
        exact ⟨k', List.mem_append_left _ hk', hlo.trans hlo'⟩
  · rename_i hempty
    refine ⟨h.canonical, fun p => ?_, fun j hj => ?_⟩
    · rw [h.covers, Covers.append, Covers.cons]
      have hp : p ∉ i := fun hp => hempty (Std.lt_of_le_of_lt hp.1 hp.2)
      simp [hp]
    · obtain ⟨k, hk, hlo⟩ := h.begins j hj
      exact ⟨k, List.mem_append_left _ hk, hlo⟩

theorem run (h : Swept seen found) (hsorted : (seen ++ l).Pairwise (fun i j => i.lo ≤ j.lo)) :
    Swept (seen ++ l) (l.foldl IntervalSet.add found) := by
  induction l generalizing seen found with
  | nil =>
    rw [List.append_nil]
    exact h
  | cons i l ih =>
    have hi : ∀ j ∈ seen, j.lo ≤ i.lo := fun j hj => (List.pairwise_append.1 hsorted).2.2 j hj i (by simp)
    have hstep := ih (h.add hi)
    rw [List.append_assoc] at hstep
    exact hstep hsorted

end Swept

theorem collect_of_sorted (hperm : m.Perm l) (hsorted : m.Pairwise (fun i j => i.lo ≤ j.lo)) :
    collect m = (ofList l).intervals := by
  have hswept : Swept m (m.foldl add []) := by
    have hstart : Swept ([] : List (Interval α)) [] := ⟨.nil, fun _ => Iff.rfl, by simp⟩
    exact hstart.run hsorted
  apply canonical_unique hswept.canonical (ofList l).canonical
  intro p
  have hfound : Covers (collect m) p ↔ Covers m p :=
    (Covers.congr_mem fun _ => List.mem_reverse).trans (hswept.covers p)
  exact hfound.trans ((Covers.congr_mem fun _ => hperm.mem_iff).trans mem_ofList.symm)

def unite (found : List (Interval α)) : List (Interval α) → List (Interval α) → List (Interval α)
  | i :: l, j :: m => if i.lo < j.lo then unite (add found i) l (j :: m) else unite (add found j) (i :: l) m
  | i :: l, [] => unite (add found i) l []
  | [], j :: m => unite (add found j) [] m
  | [], [] => found
termination_by l m => l.length + m.length

theorem unite_sweeps (found : List (Interval α)) (hl : l.Pairwise (fun i j => i.lo ≤ j.lo))
    (hm : m.Pairwise (fun i j => i.lo ≤ j.lo)) :
    ∃ order : List (Interval α), order.Perm (l ++ m) ∧ order.Pairwise (fun i j => i.lo ≤ j.lo) ∧
      unite found l m = order.foldl add found := by
  fun_induction unite found l m with
  | case1 found i l j m hfirst ih =>
    obtain ⟨order, hperm, hsorted, hrun⟩ := ih hl.tail hm
    refine ⟨i :: order, hperm.cons i, .cons (fun k hk => ?_) hsorted, hrun⟩
    rcases List.mem_append.1 (hperm.mem_iff.1 hk) with hk | hk
    · exact (List.pairwise_cons.1 hl).1 k hk
    · rcases List.mem_cons.1 hk with rfl | hk
      · exact Std.le_of_lt hfirst
      · exact Std.le_trans (Std.le_of_lt hfirst) ((List.pairwise_cons.1 hm).1 k hk)
  | case2 found i l j m hfirst ih =>
    have hji : j.lo ≤ i.lo := Std.not_lt.1 hfirst
    obtain ⟨order, hperm, hsorted, hrun⟩ := ih hl hm.tail
    refine ⟨j :: order, (hperm.cons j).trans List.perm_middle.symm, .cons (fun k hk => ?_) hsorted, hrun⟩
    rcases List.mem_append.1 (hperm.mem_iff.1 hk) with hk | hk
    · rcases List.mem_cons.1 hk with rfl | hk
      · exact hji
      · exact Std.le_trans hji ((List.pairwise_cons.1 hl).1 k hk)
    · exact (List.pairwise_cons.1 hm).1 k hk
  | case3 found i l ih =>
    obtain ⟨order, hperm, hsorted, hrun⟩ := ih hl.tail hm
    refine ⟨i :: order, hperm.cons i, .cons (fun k hk => ?_) hsorted, hrun⟩
    exact (List.pairwise_cons.1 hl).1 k (by simpa using hperm.mem_iff.1 hk)
  | case4 found j m ih =>
    obtain ⟨order, hperm, hsorted, hrun⟩ := ih hl hm.tail
    refine ⟨j :: order, hperm.cons j, .cons (fun k hk => ?_) hsorted, hrun⟩
    exact (List.pairwise_cons.1 hm).1 k (hperm.mem_iff.1 hk)
  | case5 found => exact ⟨[], .refl _, .nil, rfl⟩

theorem union_eq_ofList (s t : IntervalSet α) : s.union t = ofList (s.intervals ++ t.intervals) := by
  apply ext_of_mem
  intro p
  rw [mem_union, mem_ofList]
  exact (Covers.append (l := s.intervals)).symm

theorem unite_eq_union (s t : IntervalSet α) :
    (unite [] s.intervals t.intervals).reverse = (s.union t).intervals := by
  obtain ⟨order, hperm, hsorted, hrun⟩ := unite_sweeps [] (sorted_of_canonical s.canonical)
    (sorted_of_canonical t.canonical)
  rw [hrun, union_eq_ofList]
  exact collect_of_sorted hperm hsorted

/-- Neither the order of a list nor the way in which it was sorted matters. -/
theorem exact_in_any_order (l : List (Interval α)) (s t : IntervalSet α) :
    (∀ p, (ofList l).contains p = true ↔ ∃ i ∈ l, i.lo ≤ p ∧ p < i.hi) ∧
      (∀ m, m.Perm l → ofList m = ofList l ∧
        (m.Pairwise (fun i j => i.lo ≤ j.lo) → collect m = (ofList l).intervals)) ∧
      (∀ p, (s.union t).contains p = (s.contains p || t.contains p)) ∧
      s.union t = ofList (s.intervals ++ t.intervals) ∧
      (unite [] s.intervals t.intervals).reverse = (s.union t).intervals := by
  refine ⟨fun p => ?_, fun m hperm => ⟨?_, collect_of_sorted hperm⟩, fun p => ?_, union_eq_ofList s t,
    unite_eq_union s t⟩
  · rw [contains_iff, mem_ofList]
    exact Iff.rfl
  · apply ext_of_mem
    intro p
    rw [mem_ofList, mem_ofList]
    exact Covers.congr_mem fun _ => hperm.mem_iff
  · rw [Bool.eq_iff_iff, contains_iff, mem_union, Bool.or_eq_true, contains_iff, contains_iff]

/-- Two intervals begin together and come in the other order, an empty one stands between two that touch, and both sets
have an interval that begins at 0. -/
theorem exact_in_any_order_tied :
    let l : List (Interval Nat) :=
      [⟨5, 9, by decide⟩, ⟨3, 3, by decide⟩, ⟨0, 5, by decide⟩, ⟨5, 6, by decide⟩]
    let m : List (Interval Nat) :=
      [⟨0, 5, by decide⟩, ⟨3, 3, by decide⟩, ⟨5, 6, by decide⟩, ⟨5, 9, by decide⟩]
    let s : IntervalSet Nat := .ofList [⟨0, 2, by decide⟩, ⟨4, 6, by decide⟩]
    let t : IntervalSet Nat := .ofList [⟨0, 3, by decide⟩, ⟨6, 8, by decide⟩]
    m.Perm l ∧ m.Pairwise (fun i j => i.lo ≤ j.lo) ∧ (ofList l).intervals = [⟨0, 9, by decide⟩] ∧
      (unite [] s.intervals t.intervals).reverse = [⟨0, 3, by decide⟩, ⟨4, 8, by decide⟩] := by
  intro l m s t
  have hperm : m.Perm l := by decide
  have hsorted : m.Pairwise (fun i j => i.lo ≤ j.lo) := by decide
  have hall : List.Perm ([⟨0, 2, by decide⟩, ⟨0, 3, by decide⟩, ⟨4, 6, by decide⟩, ⟨6, 8, by decide⟩] : List (Interval Nat))
      (s.intervals ++ t.intervals) := by decide
  obtain ⟨-, hany, -, hunion, hloop⟩ := exact_in_any_order l s t
  obtain ⟨-, hboth, -⟩ := exact_in_any_order (s.intervals ++ t.intervals) s t
  refine ⟨hperm, hsorted, ?_, ?_⟩
  · rw [← (hany m hperm).2 hsorted]
    decide
  · rw [hloop, hunion, ← (hboth _ hall).2 (by decide)]
    decide

end LayeredMemory.IntervalSet
