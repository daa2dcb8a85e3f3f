import LayeredMemory.Proofs.IntervalSet.Equality

/-!
The difference of two interval sets as one pass with a cursor over the cuts. The cursor stands at the first cut that may
still matter and only moves on, so cuts must not be left behind while a later interval needs them. The pieces are put
out as they come, without merging.
-/

set_option linter.unusedSectionVars false

namespace LayeredMemory.IntervalSet

variable {α : Type} [LE α] [LT α] [DecidableLE α] {s t : IntervalSet α} {p q : α} {first n : Nat} {cut : Interval α}

theorem lt_size_of_passed (h : t.passed p n = true) : n < t.size := by
  obtain ⟨cut, hcut, -⟩ := (Option.any_eq_true _ _).1 h
  exact (List.getElem?_eq_some_iff.1 hcut).1

theorem passed_of_get? (h : t.get? n = some cut) : t.passed p n = true ↔ cut.hi ≤ p := by
  rw [passed, h, Option.any_some, decide_eq_true_eq]

def advance (t : IntervalSet α) (p : α) (first : Nat) : Nat :=
  if t.passed p first then advance t p (first + 1) else first
termination_by t.size - first
decreasing_by
  have := lt_size_of_passed (by assumption)
  omega

variable [DecidableLT α] [Std.IsLinearOrder α] [Std.LawfulOrderLT α]

theorem passed_mono (hpq : p ≤ q) (h : t.passed p n = true) : t.passed q n = true := by
  obtain ⟨cut, hcut, hp⟩ := passed_iff.1 h
  exact passed_iff.2 ⟨cut, hcut, Std.le_trans hp hpq⟩

theorem drop_advance (t : IntervalSet α) (p : α) (first : Nat) :
    t.intervals.drop (t.advance p first) = (t.intervals.drop first).dropWhile (fun cut => decide (cut.hi ≤ p)) := by
  fun_induction advance t p first with
  | case1 first hpassed ih =>
    obtain ⟨cut, hcut, hend⟩ := passed_iff.1 hpassed
    rw [ih, drop_of_get? hcut, List.dropWhile_cons, if_pos (decide_eq_true hend)]
  | case2 first hpassed =>
    cases hcut : t.get? first with
    | none =>
      rw [drop_of_get?_none hcut]
      rfl
    | some cut =>
      rw [passed_of_get? hcut] at hpassed
      rw [drop_of_get? hcut, List.dropWhile_cons, if_neg (by simpa using hpassed)]

theorem lt_advance_iff (h : ∀ n, n < first → t.passed p n = true) : n < t.advance p first ↔ t.passed p n = true := by
  fun_induction advance t p first with
  | case1 first hpassed ih =>
    apply ih
    intro n hn
    exact passed_of_le (Nat.le_of_lt_succ hn) hpassed
  | case2 first hpassed =>
    constructor
    · exact h n
    · intro hn
      apply Nat.lt_of_not_le
      intro hle
      exact hpassed (passed_of_le hle hn)

structure Cutting (α : Type) [LE α] where
  first : Nat := 0
  out : List (Interval α) := []

namespace Cutting

variable {c : Cutting α} {i : Interval α} {l : List (Interval α)}

def step (t : IntervalSet α) (c : Cutting α) (i : Interval α) : Cutting α where
  first := t.advance i.lo c.first
  out := c.out ++ i.without (t.intervals.drop (t.advance i.lo c.first))

def run (t : IntervalSet α) (c : Cutting α) (l : List (Interval α)) : Cutting α := l.foldl (step t) c

theorem out_run (t : IntervalSet α) (c : Cutting α) (l : List (Interval α)) :
    (run t c l).out = c.out ++ leftovers l (t.intervals.drop c.first) := by
  induction l generalizing c with
  | nil => exact (List.append_nil c.out).symm
  | cons i l ih =>
    change (run t (step t c i) l).out = _
    rw [ih, step, leftovers, drop_advance, List.append_assoc]

def Behind (t : IntervalSet α) (c : Cutting α) (p : α) : Prop := ∀ n, n < c.first → t.passed p n = true

theorem Behind.mono (h : Behind t c p) (hpq : p ≤ q) : Behind t c q := fun n hn => passed_mono hpq (h n hn)

theorem Behind.step (h : Behind t c i.lo) : Behind t (step t c i) i.lo := fun _ => (lt_advance_iff h).1

theorem Behind.run (hl : l.Pairwise (fun i j => i.lo ≤ j.lo)) (hp : ∀ i ∈ l, i.lo ≤ p) (h : ∀ i ∈ l, Behind t c i.lo)
    (hc : Behind t c p) : Behind t (run t c l) p := by
  induction l generalizing c with
  | nil => exact hc
  | cons i l ih =>
    obtain ⟨hnext, hl⟩ := List.pairwise_cons.1 hl
    have hi := (h i (by simp)).step
    apply ih hl
    · exact fun j hj => hp j (.tail _ hj)
    · exact fun j hj => hi.mono (hnext j hj)
    · exact hi.mono (hp i (by simp))

theorem passed_iff_of_split {done rest : List (Interval α)} (h : s.intervals = done ++ i :: rest)
    (hcut : t.get? n = some cut) : n < t.advance i.lo (run t {} done).first ↔ cut.hi ≤ i.lo := by
  have hsorted := sorted_of_canonical s.canonical
  rw [h, List.pairwise_append] at hsorted
  obtain ⟨hdone, -, hbefore⟩ := hsorted
  have hbehind : Behind t (run t {} done) i.lo := by
    apply Behind.run hdone
    · exact fun j hj => hbefore j hj i (by simp)
    · exact fun j _ n hn => absurd hn (Nat.not_lt_zero n)
    · exact fun n hn => absurd hn (Nat.not_lt_zero n)
  rw [lt_advance_iff hbehind, passed_of_get? hcut]

end Cutting

theorem sweep_of_canonical {l : List (Interval α)} (h : Canonical l) : sweep l = l := by
  have hsorted := sorted_of_canonical h
  exact canonical_unique (canonical_sweep l hsorted h.1) h (covers_sweep l hsorted)

/-- What the cursor has passed depends on the next interval alone and not on what has been cut before, so no cut is
left behind that still matters. -/
theorem difference_by_cursor (s t : IntervalSet α) :
    let pieces := (Cutting.run t {} s.intervals).out
    (∀ p, (s.difference t).contains p = (s.contains p && !t.contains p)) ∧
      pieces = (s.difference t).intervals ∧ Canonical pieces ∧ sweep pieces = pieces ∧
      ∀ done i rest, s.intervals = done ++ i :: rest →
        let cursor := t.advance i.lo (Cutting.run t {} done).first
        (∀ n cut, t.get? n = some cut → (n < cursor ↔ cut.hi ≤ i.lo)) ∧
          ∀ n cut, t.get? n = some cut → ∀ j ∈ i :: rest, ∀ p, p ∈ cut → p ∈ j → cursor ≤ n := by
  intro pieces
  have hpieces : pieces = (s.difference t).intervals := Cutting.out_run t {} s.intervals
  have hcanonical : Canonical pieces := hpieces ▸ (s.difference t).canonical
  refine ⟨fun p => ?_, hpieces, hcanonical, sweep_of_canonical hcanonical, fun done i rest h => ?_⟩
  · rw [Bool.eq_iff_iff, contains_iff, mem_difference, Bool.and_eq_true, Bool.not_eq_true', contains_iff,
      ← Bool.not_eq_true, contains_iff]
  · intro cursor
    refine ⟨fun n cut hcut => Cutting.passed_iff_of_split h hcut, fun n cut hcut j hj p hp hpj => ?_⟩
    apply Nat.le_of_not_lt
    intro hpassed
    have hend : cut.hi ≤ i.lo := (Cutting.passed_iff_of_split h hcut).1 hpassed
    have hstart : i.lo ≤ j.lo := by
      have hsorted := sorted_of_canonical s.canonical
      rw [h, List.pairwise_append] at hsorted
      rcases List.mem_cons.1 hj with rfl | hj
      · exact Std.le_refl _
      · exact (List.pairwise_cons.1 hsorted.2.1).1 j hj
    exact Std.not_lt.2 (Std.le_trans hend (Std.le_trans hstart hpj.1)) hp.2

/-- One cut spans three intervals: it begins in the first, takes away the second, and ends in the third. -/
theorem difference_by_cursor_spanning :
    let s : IntervalSet Nat := .ofList [⟨0, 2, by decide⟩, ⟨3, 5, by decide⟩, ⟨6, 9, by decide⟩]
    let t : IntervalSet Nat := .ofInterval ⟨1, 7, by decide⟩
    s.intervals = [⟨0, 2, by decide⟩, ⟨3, 5, by decide⟩] ++ ⟨6, 9, by decide⟩ :: [] ∧
      (Cutting.run t {} s.intervals).out = [⟨0, 1, by decide⟩, ⟨7, 9, by decide⟩] ∧
      t.advance 6 (Cutting.run t {} [⟨0, 2, by decide⟩, ⟨3, 5, by decide⟩]).first = 0 := by
  intro s t
  have hs : s.intervals = [⟨0, 2, by decide⟩, ⟨3, 5, by decide⟩] ++ ⟨6, 9, by decide⟩ :: [] := by decide
  obtain ⟨-, hpieces, -, -, hcursor⟩ := difference_by_cursor s t
  obtain ⟨-, hahead⟩ := hcursor _ _ _ hs
  refine ⟨hs, ?_, ?_⟩
  · rw [hpieces]
    decide
  · have hcut : t.get? 0 = some ⟨1, 7, by decide⟩ := rfl
    exact Nat.le_zero.1 (hahead 0 _ hcut ⟨6, 9, by decide⟩ (by simp) 6 (by decide) (by decide))

end LayeredMemory.IntervalSet
