import LayeredMemory.IntervalSet.Algebra

set_option linter.unusedSectionVars false

namespace LayeredMemory

variable {α : Type} [LE α] [LT α] [DecidableLE α] [DecidableLT α] [Std.IsLinearOrder α] [Std.LawfulOrderLT α]

theorem Interval.ofBounds_ok {lo hi : α} (h : lo ≤ hi) : ofBounds lo hi = .ok ⟨lo, hi, h⟩ := dif_pos h

namespace Checked

abbrev Intervals (α : Type) [LE α] := Except (ReversedBounds α) (List (Interval α))

def absorb (current : Interval α) : List (Interval α) → Intervals α
  | [] => return [current]
  | next :: rest =>
    if next.lo ≤ current.hi then
      if current.hi < next.hi then do absorb (← Interval.ofBounds current.lo next.hi) rest
      else absorb current rest
    else do
      let later ← absorb next rest
      return current :: later

def sweep : List (Interval α) → Intervals α
  | [] => return []
  | first :: rest => absorb first rest

def ofList (l : List (Interval α)) : Intervals α := sweep (IntervalSet.sort (l.filter (·.Nonempty)))

def union (l m : List (Interval α)) : Intervals α := sweep (l.merge m IntervalSet.startsFirst)

def between (lo hi : α) : Intervals α :=
  if lo < hi then do
    let i ← Interval.ofBounds lo hi
    return [i]
  else return []

def meet (i j : Interval α) : Intervals α :=
  between (if i.lo ≤ j.lo then j.lo else i.lo) (if i.hi ≤ j.hi then i.hi else j.hi)

def intersect : List (Interval α) → List (Interval α) → Intervals α
  | [], _ => return []
  | _ :: _, [] => return []
  | i :: l, j :: m => do
    let shared ← meet i j
    let later ← (if i.hi < j.hi then intersect l (j :: m) else intersect (i :: l) m)
    return shared ++ later
termination_by l m => l.length + m.length

def without (lo hi : α) : List (Interval α) → Intervals α
  | [] => do
    let left ← Interval.ofBounds lo hi
    return [left]
  | cut :: cuts =>
    if cut.lo < hi then do
      let before ← between lo cut.lo
      let after ← (if cut.hi < hi then without cut.hi hi cuts else return [])
      return before ++ after
    else do
      let left ← Interval.ofBounds lo hi
      return [left]

def difference : List (Interval α) → List (Interval α) → Intervals α
  | [], _ => return []
  | i :: l, cuts => do
    let ahead := cuts.dropWhile (fun cut => decide (cut.hi ≤ i.lo))
    let left ← without i.lo i.hi ahead
    let later ← difference l ahead
    return left ++ later

theorem absorb_eq (current : Interval α) (l : List (Interval α)) :
    absorb current l = .ok (IntervalSet.absorb current l) := by
  induction l generalizing current with
  | nil => rfl
  | cons next rest ih =>
    rw [absorb, IntervalSet.absorb]
    split
    · split
      · rename_i hextend
        have hle : current.lo ≤ next.hi := Std.le_trans current.lo_le_hi (Std.le_of_lt hextend)
        rw [Interval.ofBounds_ok hle]
        exact ih _
      · exact ih current
    · rw [ih next]
      rfl

theorem sweep_eq (l : List (Interval α)) : sweep l = .ok (IntervalSet.sweep l) := by
  cases l with
  | nil => rfl
  | cons first rest => exact absorb_eq first rest

theorem ofList_eq (l : List (Interval α)) : ofList l = .ok (IntervalSet.ofList l).intervals := sweep_eq _

theorem union_eq (s t : IntervalSet α) : union s.intervals t.intervals = .ok (s.union t).intervals := sweep_eq _

theorem between_eq (lo hi : α) :
    between lo hi = .ok (if h : lo < hi then [⟨lo, hi, Std.le_of_lt h⟩] else []) := by
  unfold between
  split
  · rename_i hlt
    rw [Interval.ofBounds_ok (Std.le_of_lt hlt)]
    rfl
  · rfl

theorem meet_eq (i j : Interval α) : meet i j = .ok (i.meet? j).toList := by
  rw [meet, between_eq, Interval.meet?]
  by_cases h : (if i.lo ≤ j.lo then j.lo else i.lo) < (if i.hi ≤ j.hi then i.hi else j.hi)
  · rw [dif_pos h, dif_pos h]
    rfl
  · rw [dif_neg h, dif_neg h]
    rfl

theorem intersect_meets (l m : List (Interval α)) : intersect l m = .ok (IntervalSet.meets l m) := by
  fun_induction IntervalSet.meets l m with
  | case1 m => rw [intersect]; rfl
  | case2 i l => rw [intersect]; rfl
  | case3 i l j m ih₁ ih₂ =>
    rw [intersect, meet_eq]
    split
    · rename_i hfirst
      rw [ih₁]
      rfl
    · rename_i hfirst
      rw [ih₂]
      rfl

theorem intersect_eq (s t : IntervalSet α) : intersect s.intervals t.intervals = .ok (s.intersect t).intervals :=
  intersect_meets _ _

theorem between_before (i cut : Interval α) : between i.lo cut.lo = .ok (i.before cut) := between_eq _ _

theorem without_eq (i : Interval α) (cuts : List (Interval α)) : without i.lo i.hi cuts = .ok (i.without cuts) := by
  induction cuts generalizing i with
  | nil =>
    rw [without, Interval.ofBounds_ok i.lo_le_hi]
    rfl
  | cons cut cuts ih =>
    rw [without, Interval.without, between_before]
    split
    · by_cases hend : cut.hi < i.hi
      · have hafter : without cut.hi i.hi cuts = _ := ih ⟨cut.hi, i.hi, Std.le_of_lt hend⟩
        rw [if_pos hend, dif_pos hend, hafter]
        rfl
      · rw [if_neg hend, dif_neg hend]
        rfl
    · rw [Interval.ofBounds_ok i.lo_le_hi]
      rfl

theorem difference_leftovers (l cuts : List (Interval α)) : difference l cuts = .ok (IntervalSet.leftovers l cuts) := by
  induction l generalizing cuts with
  | nil => rfl
  | cons i l ih =>
    rw [difference, without_eq, ih]
    rfl

theorem difference_eq (s t : IntervalSet α) :
    difference s.intervals t.intervals = .ok (s.difference t).intervals :=
  difference_leftovers _ _

end Checked

end LayeredMemory
