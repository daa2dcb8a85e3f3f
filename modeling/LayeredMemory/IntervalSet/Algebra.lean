import LayeredMemory.IntervalSet.Basic

set_option linter.unusedSectionVars false

namespace LayeredMemory

variable {α : Type} [LE α] [LT α] [DecidableLE α] [DecidableLT α] [Std.IsLinearOrder α]
  [Std.LawfulOrderLT α]

namespace Interval

def meet? (i j : Interval α) : Option (Interval α) :=
  let lo := if i.lo ≤ j.lo then j.lo else i.lo
  let hi := if i.hi ≤ j.hi then i.hi else j.hi
  if h : lo < hi then some ⟨lo, hi, Std.le_of_lt h⟩ else none

def before (i cut : Interval α) : List (Interval α) :=
  if h : i.lo < cut.lo then [⟨i.lo, cut.lo, Std.le_of_lt h⟩] else []

def without (i : Interval α) : List (Interval α) → List (Interval α)
  | [] => [i]
  | cut :: cuts =>
    if cut.lo < i.hi then
      i.before cut ++
        if h : cut.hi < i.hi then without ⟨cut.hi, i.hi, Std.le_of_lt h⟩ cuts else []
    else [i]

end Interval

namespace IntervalSet

theorem sorted_of_canonical {l : List (Interval α)} (h : Canonical l) :
    l.Pairwise (fun i j => i.lo ≤ j.lo) := by
  refine h.2.imp_of_mem fun {i j} hi _ hij => ?_
  have := h.1 i hi
  grind

theorem sorted_merge {l m : List (Interval α)} (hl : Canonical l) (hm : Canonical m) :
    (l.merge m startsFirst).Pairwise (fun i j => i.lo ≤ j.lo) := by
  have h := @List.pairwise_merge _ (startsFirst : Interval α → Interval α → Bool)
    (by simp only [startsFirst, decide_eq_true_eq]; intro a b c; exact Std.le_trans)
    (by simp only [startsFirst, Bool.or_eq_true, decide_eq_true_eq]; intro a b; exact Std.le_total)
    l m (by simpa [startsFirst] using sorted_of_canonical hl)
    (by simpa [startsFirst] using sorted_of_canonical hm)
  simpa [startsFirst] using h

def union (s t : IntervalSet α) : IntervalSet α where
  intervals := sweep (s.intervals.merge t.intervals startsFirst)
  canonical := canonical_sweep _ (sorted_merge s.canonical t.canonical) fun i hi => by
    rcases List.mem_append.1 ((List.merge_perm_append _).subset hi) with hi | hi
    · exact s.canonical.1 i hi
    · exact t.canonical.1 i hi

def meets : List (Interval α) → List (Interval α) → List (Interval α)
  | [], _ => []
  | _ :: _, [] => []
  | i :: l, j :: m =>
    (i.meet? j).toList ++ if i.hi < j.hi then meets l (j :: m) else meets (i :: l) m
termination_by l m => l.length + m.length

theorem meet?_bounds {i j k : Interval α} (h : i.meet? j = some k) :
    k.lo < k.hi ∧ i.lo ≤ k.lo ∧ j.lo ≤ k.lo ∧ k.hi ≤ i.hi ∧ k.hi ≤ j.hi := by
  unfold Interval.meet? at h
  grind

theorem bounds_of_mem_meets {l m : List (Interval α)} {k : Interval α} (hk : k ∈ meets l m) :
    ∃ i ∈ l, ∃ j ∈ m, i.lo ≤ k.lo ∧ j.lo ≤ k.lo ∧ k.lo < k.hi := by
  fun_induction meets l m with
  | case1 => simp at hk
  | case2 => simp at hk
  | case3 i l j m ih₁ ih₂ =>
    rcases List.mem_append.1 hk with hk | hk
    · have := meet?_bounds (Option.mem_toList.1 hk)
      exact ⟨i, by simp, j, by simp, this.2.1, this.2.2.1, this.1⟩
    · grind

theorem canonical_meets {l m : List (Interval α)} (hl : Canonical l) (hm : Canonical m) :
    Canonical (meets l m) := by
  fun_induction meets l m with
  | case1 => exact .nil
  | case2 => exact .nil
  | case3 i l j m ih₁ ih₂ =>
    have hrest : Canonical (if i.hi < j.hi then meets l (j :: m) else meets (i :: l) m) := by
      split
      · exact ih₁ hl.tail hm
      · exact ih₂ hl hm.tail
    cases hk : i.meet? j with
    | none => simpa using hrest
    | some k =>
      have hb := meet?_bounds hk
      refine .cons hb.1 (fun x hx => ?_) hrest
      split at hx
      · obtain ⟨i', hi', -, -, hlo, -, -⟩ := bounds_of_mem_meets hx
        have := hl.head_lt i' hi'
        grind
      · obtain ⟨-, -, j', hj', -, hlo, -⟩ := bounds_of_mem_meets hx
        have := hm.head_lt j' hj'
        grind

def intersect (s t : IntervalSet α) : IntervalSet α :=
  ⟨meets s.intervals t.intervals, canonical_meets s.canonical t.canonical⟩

/-- What is left of an ascending list outside of ascending cuts. A cut that ends before an interval begins
matters to none of the intervals after it either. -/
def leftovers : List (Interval α) → List (Interval α) → List (Interval α)
  | [], _ => []
  | i :: l, cuts =>
    let ahead := cuts.dropWhile (fun cut => decide (cut.hi ≤ i.lo))
    i.without ahead ++ leftovers l ahead

theorem mem_before {i cut k : Interval α} (h : k ∈ i.before cut) :
    k.lo = i.lo ∧ k.hi = cut.lo ∧ i.lo < cut.lo := by
  unfold Interval.before at h
  grind

theorem canonical_before (i cut : Interval α) : Canonical (i.before cut) := by
  unfold Interval.before
  split
  · exact .cons ‹_› (by simp) .nil
  · exact .nil

theorem bounds_of_mem_without {i k : Interval α} {cuts : List (Interval α)}
    (hc : Canonical cuts) (hi : ∀ cut ∈ cuts, i.lo < cut.hi) (hk : k ∈ i.without cuts) :
    i.lo ≤ k.lo ∧ k.hi ≤ i.hi := by
  induction cuts generalizing i with
  | nil => simp_all [Interval.without, Std.le_refl]
  | cons cut cuts ih =>
    have hlt := hc.head_lt
    have hn := hc.1
    unfold Interval.without at hk
    split at hk
    · rcases List.mem_append.1 hk with hk | hk
      · have := mem_before hk
        grind
      · split at hk
        · have := ih (i := ⟨cut.hi, i.hi, _⟩) hc.tail (by grind) hk
          grind
        · simp at hk
    · grind

theorem canonical_without {i : Interval α} {cuts : List (Interval α)} (hne : i.lo < i.hi)
    (hc : Canonical cuts) (hi : ∀ cut ∈ cuts, i.lo < cut.hi) : Canonical (i.without cuts) := by
  induction cuts generalizing i with
  | nil => exact .cons hne (by simp) .nil
  | cons cut cuts ih =>
    have hlt := hc.head_lt
    have hn := hc.1
    unfold Interval.without
    split
    · refine (canonical_before i cut).append ?_ fun k hk k' hk' => ?_
      · split
        · exact ih ‹_› hc.tail (by grind)
        · exact .nil
      · have := mem_before hk
        split at hk'
        · have := bounds_of_mem_without (i := ⟨cut.hi, i.hi, _⟩) hc.tail (by grind) hk'
          grind
        · simp at hk'
    · exact .cons hne (by simp) .nil

theorem canonical_dropWhile {l : List (Interval α)} (h : Canonical l) (p : Interval α → Bool) :
    Canonical (l.dropWhile p) :=
  ⟨fun i hi => h.1 i (List.dropWhile_subset p hi), h.2.sublist (List.dropWhile_sublist p)⟩

theorem lt_hi_of_mem_dropWhile {l : List (Interval α)} (h : Canonical l) (p : α) :
    ∀ i ∈ l.dropWhile (fun i => decide (i.hi ≤ p)), p < i.hi := by
  induction l with
  | nil => simp
  | cons i l ih =>
    have hlt := h.head_lt
    have hn := h.1
    rw [List.dropWhile_cons]
    split
    · exact ih h.tail
    · grind

theorem bounds_of_mem_leftovers {l cuts : List (Interval α)} {k : Interval α}
    (hl : Canonical l) (hc : Canonical cuts) (hk : k ∈ leftovers l cuts) :
    ∃ i ∈ l, i.lo ≤ k.lo ∧ k.hi ≤ i.hi := by
  induction l generalizing cuts with
  | nil => simp [leftovers] at hk
  | cons i l ih =>
    rcases List.mem_append.1 hk with hk | hk
    · exact ⟨i, by simp, bounds_of_mem_without (canonical_dropWhile hc _) (lt_hi_of_mem_dropWhile hc _) hk⟩
    · obtain ⟨j, hj, hb⟩ := ih hl.tail (canonical_dropWhile hc _) hk
      exact ⟨j, by simp [hj], hb⟩

theorem canonical_leftovers {l cuts : List (Interval α)} (hl : Canonical l) (hc : Canonical cuts) :
    Canonical (leftovers l cuts) := by
  induction l generalizing cuts with
  | nil => exact .nil
  | cons i l ih =>
    have hd := canonical_dropWhile hc (fun cut => decide (cut.hi ≤ i.lo))
    have hi := lt_hi_of_mem_dropWhile hc i.lo
    have hw := canonical_without (hl.1 i (by simp)) hd hi
    refine hw.append (ih hl.tail hd) fun k hk k' hk' => ?_
    have hb := bounds_of_mem_without hd hi hk
    obtain ⟨j, hj, hb'⟩ := bounds_of_mem_leftovers hl.tail hd hk'
    have := hl.head_lt j hj
    grind

def difference (s t : IntervalSet α) : IntervalSet α :=
  ⟨leftovers s.intervals t.intervals, canonical_leftovers s.canonical t.canonical⟩

end IntervalSet

end LayeredMemory
