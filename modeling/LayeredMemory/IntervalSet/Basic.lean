import LayeredMemory.Interval

/-!
Sets of points as canonical lists of intervals: ascending, none empty, no two that touch. A set of points
has one such list, so equality of sets is equality of lists. `IntervalSet.ofList` brings any list into that
form: it sorts the intervals and joins, in one sweep, those that touch or overlap.
-/

set_option linter.unusedSectionVars false

namespace LayeredMemory

def Canonical {α : Type} [LE α] [LT α] (l : List (Interval α)) : Prop :=
  (∀ i ∈ l, i.lo < i.hi) ∧ l.Pairwise (fun i j => i.hi < j.lo)

@[ext] structure IntervalSet (α : Type) [LE α] [LT α] where
  intervals : List (Interval α)
  canonical : Canonical intervals
  deriving DecidableEq

variable {α : Type} [LE α] [LT α]

namespace Canonical

theorem nil : Canonical ([] : List (Interval α)) := ⟨by simp, .nil⟩

theorem cons {i : Interval α} {l : List (Interval α)} (hi : i.lo < i.hi)
    (hl : ∀ j ∈ l, i.hi < j.lo) (h : Canonical l) : Canonical (i :: l) :=
  ⟨by simpa [hi] using h.1, .cons hl h.2⟩

theorem tail {i : Interval α} {l : List (Interval α)} (h : Canonical (i :: l)) : Canonical l :=
  ⟨fun j hj => h.1 j (.tail _ hj), h.2.tail⟩

theorem head_lt {i : Interval α} {l : List (Interval α)} (h : Canonical (i :: l)) :
    ∀ j ∈ l, i.hi < j.lo :=
  (List.pairwise_cons.1 h.2).1

theorem append {l m : List (Interval α)} (hl : Canonical l) (hm : Canonical m)
    (h : ∀ i ∈ l, ∀ j ∈ m, i.hi < j.lo) : Canonical (l ++ m) :=
  ⟨fun i hi => (List.mem_append.1 hi).elim (hl.1 i) (hm.1 i), List.pairwise_append.2 ⟨hl.2, hm.2, h⟩⟩

end Canonical

variable [DecidableLE α] [DecidableLT α] [Std.IsLinearOrder α] [Std.LawfulOrderLT α]

namespace IntervalSet

def startsFirst (i j : Interval α) : Bool := decide (i.lo ≤ j.lo)

def absorb (current : Interval α) : List (Interval α) → List (Interval α)
  | [] => [current]
  | next :: rest =>
    if next.lo ≤ current.hi then
      if h : current.hi < next.hi then
        absorb ⟨current.lo, next.hi, by have := current.lo_le_hi; grind⟩ rest
      else absorb current rest
    else current :: absorb next rest

def sweep : List (Interval α) → List (Interval α)
  | [] => []
  | first :: rest => absorb first rest

theorem le_lo_of_mem_absorb (current : Interval α) (l : List (Interval α))
    (hs : (current :: l).Pairwise (fun i j => i.lo ≤ j.lo)) :
    ∀ i ∈ absorb current l, current.lo ≤ i.lo := by
  induction l generalizing current with
  | nil => simp [absorb, Std.le_refl]
  | cons next rest ih =>
    have hn : current.lo ≤ next.lo := by grind [List.pairwise_cons]
    have hc : (current :: rest).Pairwise (fun i j => i.lo ≤ j.lo) := by grind [List.pairwise_cons]
    unfold absorb
    split
    · split
      · exact ih ⟨current.lo, next.hi, _⟩ (by grind [List.pairwise_cons])
      · exact ih current hc
    · intro i hi
      rcases List.mem_cons.1 hi with rfl | hi
      · exact Std.le_refl _
      · exact Std.le_trans hn (ih next hs.tail i hi)

theorem canonical_absorb (current : Interval α) (l : List (Interval α))
    (hs : (current :: l).Pairwise (fun i j => i.lo ≤ j.lo))
    (hn : ∀ i ∈ current :: l, i.lo < i.hi) : Canonical (absorb current l) := by
  induction l generalizing current with
  | nil => exact .cons (hn _ (.head _)) (by simp) .nil
  | cons next rest ih =>
    have hr : next.lo < next.hi := hn next (by simp)
    unfold absorb
    split
    · split
      · refine ih ⟨current.lo, next.hi, _⟩ (by grind [List.pairwise_cons]) ?_
        grind
      · exact ih current (by grind [List.pairwise_cons]) (by grind)
    · rename_i hgap
      refine .cons (hn _ (.head _)) ?_ (ih next hs.tail (fun i hi => hn i (.tail _ hi)))
      intro i hi
      have := le_lo_of_mem_absorb next rest hs.tail i hi
      grind

theorem canonical_sweep (l : List (Interval α)) (hs : l.Pairwise (fun i j => i.lo ≤ j.lo))
    (hn : ∀ i ∈ l, i.lo < i.hi) : Canonical (sweep l) := by
  cases l with
  | nil => exact .nil
  | cons first rest => exact canonical_absorb first rest hs hn

theorem sorted_mergeSort (l : List (Interval α)) :
    (l.mergeSort startsFirst).Pairwise (fun i j => i.lo ≤ j.lo) := by
  have h := @List.pairwise_mergeSort _ (startsFirst : Interval α → Interval α → Bool)
    (by simp only [startsFirst, decide_eq_true_eq]; intro a b c; exact Std.le_trans)
    (by simp only [startsFirst, Bool.or_eq_true, decide_eq_true_eq]; intro a b; exact Std.le_total) l
  simpa [startsFirst] using h

def ascending : List (Interval α) → Bool
  | i :: j :: rest => startsFirst i j && ascending (j :: rest)
  | _ => true

theorem sorted_of_ascending {l : List (Interval α)} (h : ascending l = true) :
    l.Pairwise (fun i j => startsFirst i j = true) := by
  induction l with
  | nil => exact .nil
  | cons i rest ih =>
    cases rest with
    | nil => simp
    | cons j rest =>
      simp only [ascending, Bool.and_eq_true] at h
      have hr := ih h.2
      refine .cons (fun k hk => ?_) hr
      rcases List.mem_cons.1 hk with rfl | hk
      · exact h.1
      · have hj := (List.pairwise_cons.1 hr).1 k hk
        simp only [startsFirst, decide_eq_true_eq] at h hj ⊢
        exact Std.le_trans h.1 hj

def sort (l : List (Interval α)) : List (Interval α) :=
  if ascending l then l else l.mergeSort startsFirst

theorem sort_eq_mergeSort (l : List (Interval α)) : sort l = l.mergeSort startsFirst := by
  unfold sort
  split
  · rename_i h
    exact (List.mergeSort_of_pairwise (sorted_of_ascending h)).symm
  · rfl

def ofList (l : List (Interval α)) : IntervalSet α where
  intervals := sweep (sort (l.filter (·.Nonempty)))
  canonical := by
    rw [sort_eq_mergeSort]
    exact canonical_sweep _ (sorted_mergeSort _) fun _ hi =>
      of_decide_eq_true (List.mem_filter.1 (List.mem_mergeSort.1 hi)).2

def empty : IntervalSet α := ⟨[], .nil⟩

instance : EmptyCollection (IntervalSet α) := ⟨empty⟩

instance : Inhabited (IntervalSet α) := ⟨empty⟩

def ofInterval (i : Interval α) : IntervalSet α :=
  if h : i.lo < i.hi then ⟨[i], .cons h (by simp) .nil⟩ else empty

instance : Membership α (IntervalSet α) where
  mem s p := ∃ i ∈ s.intervals, p ∈ i

def contains (s : IntervalSet α) (p : α) : Bool :=
  match s.intervals.dropWhile (fun i => decide (i.hi ≤ p)) with
  | [] => false
  | i :: _ => decide (p ∈ i)

def isEmpty (s : IntervalSet α) : Bool := s.intervals.isEmpty

def size (s : IntervalSet α) : Nat := s.intervals.length

def get? (s : IntervalSet α) (n : Nat) : Option (Interval α) := s.intervals[n]?

theorem lo_le_getLast_hi (i : Interval α) (l : List (Interval α)) (h : Canonical (i :: l)) :
    i.lo ≤ ((i :: l).getLast (by simp)).hi := by
  rcases List.mem_cons.1 (List.getLast_mem (l := i :: l) (by simp)) with hl | hl
  · rw [hl]; exact i.lo_le_hi
  · have := h.head_lt _ hl
    have := i.lo_le_hi
    have := ((i :: l).getLast (by simp)).lo_le_hi
    grind

def span? (s : IntervalSet α) : Option (Interval α) :=
  match h : s.intervals with
  | [] => none
  | i :: l => some ⟨i.lo, ((i :: l).getLast (by simp)).hi, lo_le_getLast_hi i l (h ▸ s.canonical)⟩

def text [ToString α] (s : IntervalSet α) : String :=
  "\x7b" ++ ", ".intercalate (s.intervals.map Interval.text) ++ "\x7d"

end IntervalSet

end LayeredMemory
