import LayeredMemory.Proofs.IntervalSet.Equality

set_option linter.unusedSectionVars false

namespace LayeredMemory.IntervalSet

variable {α : Type} [LE α] [LT α] [DecidableLE α] [DecidableLT α] [Std.IsLinearOrder α] [Std.LawfulOrderLT α]
  {s t : IntervalSet α} {i : Interval α} {found : List (Interval α)}

theorem meets_nil (l : List (Interval α)) : meets l [] = [] := by
  cases l with
  | nil => rw [meets]
  | cons i l => rw [meets]

def push (i : Interval α) : List (Interval α) → List (Interval α)
  | [] => [i]
  | last :: found =>
    if i.lo ≤ last.hi then
      if h : last.hi < i.hi then ⟨last.lo, i.hi, Std.le_trans last.lo_le_hi (Std.le_of_lt h)⟩ :: found
      else last :: found
    else i :: last :: found

theorem push_of_canonical {l : List (Interval α)} (h : Canonical (found.reverse ++ i :: l)) :
    push i found = i :: found := by
  cases found with
  | nil => rfl
  | cons last found =>
    have hgap : last.hi < i.lo := by
      rw [List.reverse_cons, List.append_assoc] at h
      exact (List.pairwise_cons.1 (List.pairwise_append.1 h.2).2.1).1 i (by simp)
    rw [push, if_neg (Std.not_le.2 hgap)]

structure Pairing (α : Type) [LE α] where
  left : Nat := 0
  right : Nat := 0
  found : List (Interval α) := []

namespace Pairing

variable {c d : Pairing α}

def round (s t : IntervalSet α) (c : Pairing α) : Option (Pairing α) :=
  match s.get? c.left, t.get? c.right with
  | some i, some j =>
    let found := (i.meet? j).elim c.found (push · c.found)
    some (if i.hi < j.hi then ⟨c.left + 1, c.right, found⟩ else ⟨c.left, c.right + 1, found⟩)
  | _, _ => none

inductive Rounds (s t : IntervalSet α) : Nat → Pairing α → Pairing α → Prop
  | stop {c : Pairing α} (h : c.round s t = none) : Rounds s t 0 c c
  | round {n : Nat} {c c' d : Pairing α} (h : c.round s t = some c') (hrest : Rounds s t n c' d) : Rounds s t (n + 1) c d

theorem round_cases (h : c.round s t = some d) :
    ∃ i j, s.get? c.left = some i ∧ t.get? c.right = some j ∧
      d.found = (i.meet? j).elim c.found (push · c.found) ∧
      (i.hi < j.hi ∧ d.left = c.left + 1 ∧ d.right = c.right ∨
        ¬ i.hi < j.hi ∧ d.left = c.left ∧ d.right = c.right + 1) := by
  unfold round at h
  split at h
  · rename_i i j hi hj
    refine ⟨i, j, hi, hj, ?_⟩
    obtain rfl := Option.some.inj h
    split
    · exact ⟨rfl, .inl ⟨‹_›, rfl, rfl⟩⟩
    · exact ⟨rfl, .inr ⟨‹_›, rfl, rfl⟩⟩
  · cases h

theorem get?_eq_none_of_stop (h : c.round s t = none) : s.get? c.left = none ∨ t.get? c.right = none := by
  unfold round at h
  split at h
  · cases h
  · rename_i hnot
    cases hi : s.get? c.left with
    | none => exact .inl rfl
    | some i =>
      cases hj : t.get? c.right with
      | none => exact .inr rfl
      | some j => exact absurd hj (hnot i j hi)

def whole (s t : IntervalSet α) (c : Pairing α) : List (Interval α) :=
  c.found.reverse ++ meets (s.intervals.drop c.left) (t.intervals.drop c.right)

def remaining (s t : IntervalSet α) (c : Pairing α) : Nat := (s.size - c.left) + (t.size - c.right)

theorem whole_of_stop (h : c.round s t = none) : whole s t c = c.found.reverse := by
  have hmeets : meets (s.intervals.drop c.left) (t.intervals.drop c.right) = [] := by
    rcases get?_eq_none_of_stop h with hend | hend
    · rw [drop_of_get?_none hend, meets]
    · rw [drop_of_get?_none hend, meets_nil]
  rw [whole, hmeets, List.append_nil]

theorem whole_round (h : c.round s t = some d) (hc : Canonical (whole s t c)) : whole s t d = whole s t c := by
  obtain ⟨i, j, hi, hj, hfound, hmove⟩ := round_cases h
  have hrest : meets (s.intervals.drop c.left) (t.intervals.drop c.right) =
      (i.meet? j).toList ++ meets (s.intervals.drop d.left) (t.intervals.drop d.right) := by
    rw [drop_of_get? hi, drop_of_get? hj, meets]
    obtain ⟨hfirst, hleft, hright⟩ | ⟨hfirst, hleft, hright⟩ := hmove
    · rw [if_pos hfirst, hleft, hright, drop_of_get? hj]
    · rw [if_neg hfirst, hleft, hright, drop_of_get? hi]
  rw [whole, hrest] at hc
  rw [whole, whole, hrest, hfound]
  cases hk : i.meet? j with
  | none => rfl
  | some k =>
    rw [hk] at hc
    rw [Option.elim_some, push_of_canonical hc, List.reverse_cons, List.append_assoc]
    rfl

theorem remaining_round (h : c.round s t = some d) : remaining s t c = remaining s t d + 1 := by
  obtain ⟨i, j, hi, hj, -, hmove⟩ := round_cases h
  have hleft := lt_size_of_get? hi
  have hright := lt_size_of_get? hj
  unfold remaining
  omega

/-- Every round takes a cursor one interval on, so the loop stops. -/
theorem exists_rounds (hc : Canonical (whole s t c)) :
    ∃ n d, n ≤ remaining s t c ∧ Rounds s t n c d ∧ d.found.reverse = whole s t c := by
  induction hn : remaining s t c generalizing c with
  | zero =>
    cases hround : c.round s t with
    | none => exact ⟨0, c, Nat.le_refl 0, .stop hround, (whole_of_stop hround).symm⟩
    | some d =>
      have hless := remaining_round hround
      omega
  | succ n ih =>
    cases hround : c.round s t with
    | none => exact ⟨0, c, Nat.zero_le _, .stop hround, (whole_of_stop hround).symm⟩
    | some d =>
      have hwhole := whole_round hround hc
      have hless := remaining_round hround
      obtain ⟨k, e, hk, hrounds, hfound⟩ := ih (c := d) (hwhole ▸ hc) (by omega)
      exact ⟨k + 1, e, Nat.succ_le_succ hk, .round hround hrounds, hfound.trans hwhole⟩

end Pairing

theorem intersect_comm (s t : IntervalSet α) : s.intersect t = t.intersect s := by
  apply ext_of_mem
  intro p
  rw [mem_intersect, mem_intersect]
  exact And.comm

theorem intersect_by_cursors (s t : IntervalSet α) :
    (∀ p, (s.intersect t).contains p = (s.contains p && t.contains p)) ∧ s.intersect t = t.intersect s ∧
      ∃ n c, n ≤ s.size + t.size ∧ Pairing.Rounds s t n {} c ∧ Canonical c.found.reverse ∧
        c.found.reverse = (s.intersect t).intervals := by
  refine ⟨fun p => ?_, intersect_comm s t, ?_⟩
  · rw [Bool.eq_iff_iff, contains_iff, mem_intersect, Bool.and_eq_true, contains_iff, contains_iff]
  · have hwhole : Pairing.whole s t {} = (s.intersect t).intervals := rfl
    obtain ⟨n, c, hn, hrounds, hfound⟩ := Pairing.exists_rounds (hwhole ▸ (s.intersect t).canonical)
    rw [hwhole] at hfound
    exact ⟨n, c, hn, hrounds, hfound ▸ (s.intersect t).canonical, hfound⟩

/-- Two pairs of intervals end together; an interval of each set overlaps two of the other. -/
theorem intersect_by_cursors_tied :
    let s : IntervalSet Nat := .ofList [⟨0, 4, by decide⟩, ⟨6, 9, by decide⟩]
    let t : IntervalSet Nat := .ofList [⟨2, 4, by decide⟩, ⟨5, 7, by decide⟩, ⟨8, 9, by decide⟩]
    let shared : List (Interval Nat) := [⟨2, 4, by decide⟩, ⟨6, 7, by decide⟩, ⟨8, 9, by decide⟩]
    (t.intersect s).intervals = shared ∧
      ∃ n c, n ≤ 5 ∧ Pairing.Rounds s t n {} c ∧ c.found.reverse = shared := by
  intro s t shared
  obtain ⟨-, hcomm, n, c, hn, hrounds, -, hfound⟩ := intersect_by_cursors s t
  have hsize : s.size + t.size = 5 := by decide
  have hshared : (s.intersect t).intervals = shared := by
    have hs : s.intervals = [⟨0, 4, by decide⟩, ⟨6, 9, by decide⟩] := by decide
    have ht : t.intervals = [⟨2, 4, by decide⟩, ⟨5, 7, by decide⟩, ⟨8, 9, by decide⟩] := by decide
    change meets s.intervals t.intervals = shared
    rw [hs, ht]
    simp [meets, Interval.meet?, shared]
  rw [hsize] at hn
  exact ⟨hcomm ▸ hshared, n, c, hn, hrounds, hfound.trans hshared⟩

end LayeredMemory.IntervalSet
