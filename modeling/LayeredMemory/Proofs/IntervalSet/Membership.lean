import LayeredMemory.IntervalSet.Algebra

set_option linter.unusedSectionVars false

namespace LayeredMemory

variable {α : Type} [LE α] [LT α] [DecidableLE α] [DecidableLT α] [Std.IsLinearOrder α]
  [Std.LawfulOrderLT α]

theorem Interval.mem_iff {i : Interval α} {p : α} : p ∈ i ↔ i.lo ≤ p ∧ p < i.hi := Iff.rfl

def Covers (l : List (Interval α)) (p : α) : Prop := ∃ i ∈ l, p ∈ i

namespace Covers

variable {i : Interval α} {l m : List (Interval α)} {p : α}

@[simp] theorem nil : ¬ Covers [] p := by
  rintro ⟨i, hi, -⟩
  cases hi

@[simp] theorem cons : Covers (i :: l) p ↔ p ∈ i ∨ Covers l p := by
  simp [Covers]

@[simp] theorem append : Covers (l ++ m) p ↔ Covers l p ∨ Covers m p := by
  simp only [Covers, List.mem_append]
  constructor
  · rintro ⟨i, hi | hi, hp⟩
    · exact .inl ⟨i, hi, hp⟩
    · exact .inr ⟨i, hi, hp⟩
  · rintro (⟨i, hi, hp⟩ | ⟨i, hi, hp⟩)
    · exact ⟨i, .inl hi, hp⟩
    · exact ⟨i, .inr hi, hp⟩

theorem congr_mem (h : ∀ i, i ∈ l ↔ i ∈ m) : Covers l p ↔ Covers m p := by
  simp only [Covers, h]

theorem filter_nonempty : Covers (l.filter (·.Nonempty)) p ↔ Covers l p := by
  constructor
  · rintro ⟨i, hi, hp⟩
    exact ⟨i, (List.mem_filter.1 hi).1, hp⟩
  · rintro ⟨i, hi, hp⟩
    have hne : i.Nonempty := Std.lt_of_le_of_lt hp.1 hp.2
    exact ⟨i, List.mem_filter.2 ⟨hi, by simpa using hne⟩, hp⟩

theorem hi_lt (h : Canonical (i :: l)) (hp : Covers l p) : i.hi < p := by
  obtain ⟨j, hj, hp⟩ := hp
  exact Std.lt_of_lt_of_le (h.head_lt j hj) hp.1

theorem lo (h : Canonical (i :: l)) : Covers (i :: l) i.lo :=
  cons.2 (.inl ⟨Std.le_refl _, h.1 i (by simp)⟩)

theorem lo_le (h : Canonical (i :: l)) (hp : Covers (i :: l) p) : i.lo ≤ p := by
  rcases cons.1 hp with hi | hl
  · exact hi.1
  · exact Std.le_of_lt (Std.lt_of_le_of_lt i.lo_le_hi (hi_lt h hl))

theorem hi_not_mem (h : Canonical (i :: l)) : ¬ Covers (i :: l) i.hi := by
  rw [cons]
  rintro (hi | hl)
  · exact Std.lt_irrefl hi.2
  · exact Std.lt_irrefl (hi_lt h hl)

end Covers

namespace IntervalSet

theorem mem_iff {s : IntervalSet α} {p : α} : p ∈ s ↔ Covers s.intervals p := Iff.rfl

theorem covers_absorb (current : Interval α) (l : List (Interval α))
    (hs : (current :: l).Pairwise (fun i j => i.lo ≤ j.lo)) (p : α) :
    Covers (absorb current l) p ↔ p ∈ current ∨ Covers l p := by
  induction l generalizing current with
  | nil => simp [absorb]
  | cons next rest ih =>
    obtain ⟨hcurrent, hrest⟩ := List.pairwise_cons.1 hs
    have hnext : current.lo ≤ next.lo := hcurrent next (by simp)
    have hskip : (current :: rest).Pairwise (fun i j => i.lo ≤ j.lo) :=
      .cons (fun i hi => hcurrent i (.tail _ hi)) hrest.tail
    have hlo := current.lo_le_hi
    rw [absorb, Covers.cons]
    split
    · rename_i htouch
      split
      · rename_i hextend
        rw [ih ⟨current.lo, next.hi, _⟩ (.cons (fun i hi => hcurrent i (.tail _ hi)) hrest.tail)]
        simp only [Interval.mem_iff]
        grind
      · rw [ih current hskip]
        simp only [Interval.mem_iff]
        grind
    · rw [Covers.cons, ih next hrest]

theorem covers_sweep (l : List (Interval α)) (hs : l.Pairwise (fun i j => i.lo ≤ j.lo)) (p : α) :
    Covers (sweep l) p ↔ Covers l p := by
  cases l with
  | nil => exact Iff.rfl
  | cons first rest => rw [sweep, covers_absorb first rest hs, Covers.cons]

theorem mem_ofList {l : List (Interval α)} {p : α} : p ∈ ofList l ↔ ∃ i ∈ l, p ∈ i := by
  change Covers (sweep (sort (l.filter (·.Nonempty)))) p ↔ Covers l p
  rw [sort_eq_mergeSort, covers_sweep _ (sorted_mergeSort _),
    Covers.congr_mem (fun _ => List.mem_mergeSort), Covers.filter_nonempty]

@[simp] theorem not_mem_empty {p : α} : p ∉ (empty : IntervalSet α) := Covers.nil

@[simp] theorem mem_ofInterval {i : Interval α} {p : α} : p ∈ ofInterval i ↔ p ∈ i := by
  unfold ofInterval
  split
  · rw [mem_iff, Covers.cons]
    simp
  · rename_i hne
    constructor
    · intro hp
      exact absurd hp not_mem_empty
    · intro hp
      exact absurd (Std.lt_of_le_of_lt hp.1 hp.2) hne

@[simp] theorem mem_union {s t : IntervalSet α} {p : α} : p ∈ s.union t ↔ p ∈ s ∨ p ∈ t := by
  rw [mem_iff, union, covers_sweep _ (sorted_merge s.canonical t.canonical),
    Covers.congr_mem (fun _ => (List.merge_perm_append _).mem_iff), Covers.append]
  exact Iff.rfl

theorem mem_meet? {i j : Interval α} {p : α} : Covers (i.meet? j).toList p ↔ p ∈ i ∧ p ∈ j := by
  unfold Interval.meet?
  simp only [Interval.mem_iff]
  grind [Covers.cons, Covers.nil, Interval.mem_iff]

theorem covers_meets {l m : List (Interval α)} (hl : Canonical l) (hm : Canonical m) (p : α) :
    Covers (meets l m) p ↔ Covers l p ∧ Covers m p := by
  fun_induction meets l m with
  | case1 => simp
  | case2 => simp
  | case3 i l j m ih₁ ih₂ =>
    have hi := fun h => Covers.hi_lt (p := p) hl h
    have hj := fun h => Covers.hi_lt (p := p) hm h
    rw [Covers.append, mem_meet?]
    split
    · rename_i hfirst
      rw [ih₁ hl.tail hm]
      simp only [Covers.cons, Interval.mem_iff]
      grind
    · rename_i hfirst
      rw [ih₂ hl hm.tail]
      simp only [Covers.cons, Interval.mem_iff]
      grind

@[simp] theorem mem_intersect {s t : IntervalSet α} {p : α} : p ∈ s.intersect t ↔ p ∈ s ∧ p ∈ t :=
  covers_meets s.canonical t.canonical p

theorem covers_before {i cut : Interval α} {p : α} :
    Covers (i.before cut) p ↔ i.lo ≤ p ∧ p < cut.lo := by
  unfold Interval.before
  split
  · rw [Covers.cons, Interval.mem_iff]
    simp
  · rename_i hle
    constructor
    · intro h
      exact absurd h Covers.nil
    · rintro ⟨hlo, hhi⟩
      exact absurd (Std.lt_of_le_of_lt hlo hhi) hle

theorem covers_without {i : Interval α} {cuts : List (Interval α)} (hc : Canonical cuts)
    (hi : ∀ cut ∈ cuts, i.lo < cut.hi) (p : α) :
    Covers (i.without cuts) p ↔ p ∈ i ∧ ¬ Covers cuts p := by
  induction cuts generalizing i with
  | nil => simp [Interval.without]
  | cons cut cuts ih =>
    have hcut := hc.1 cut (by simp)
    have hlater := fun h => Covers.hi_lt (p := p) hc h
    have hstart := hi cut (by simp)
    rw [Interval.without]
    split
    · rw [Covers.append, covers_before]
      split
      · rename_i hend
        rw [ih hc.tail (fun next hn => Std.lt_trans (hc.head_lt next hn) (hc.1 next (.tail _ hn)))]
        simp only [Covers.cons, Interval.mem_iff]
        grind
      · simp only [Covers.cons, Interval.mem_iff, Covers.nil]
        grind
    · simp only [Covers.cons, Interval.mem_iff, Covers.nil]
      grind

theorem covers_dropWhile {cuts : List (Interval α)} {lo p : α} (hp : lo ≤ p) :
    Covers (cuts.dropWhile (fun cut => decide (cut.hi ≤ lo))) p ↔ Covers cuts p := by
  induction cuts with
  | nil => exact Iff.rfl
  | cons cut cuts ih =>
    rw [List.dropWhile_cons]
    split
    · rename_i hpassed
      have hend : cut.hi ≤ lo := of_decide_eq_true hpassed
      rw [ih, Covers.cons, Interval.mem_iff]
      constructor
      · exact .inr
      · rintro (hcut | h)
        · exact absurd hcut.2 (Std.not_lt.2 (Std.le_trans hend hp))
        · exact h
    · exact Iff.rfl

theorem covers_leftovers {l cuts : List (Interval α)} (hl : Canonical l) (hc : Canonical cuts)
    (p : α) : Covers (leftovers l cuts) p ↔ Covers l p ∧ ¬ Covers cuts p := by
  induction l generalizing cuts with
  | nil => simp [leftovers]
  | cons i l ih =>
    have hd := canonical_dropWhile hc (fun cut => decide (cut.hi ≤ i.lo))
    have hlater := fun h => Covers.hi_lt (p := p) hl h
    have hlo := i.lo_le_hi
    rw [leftovers, Covers.append, covers_without hd (lt_hi_of_mem_dropWhile hc i.lo), ih hl.tail hd,
      Covers.cons]
    constructor
    · rintro (⟨hp, hcut⟩ | ⟨hp, hcut⟩)
      · rw [covers_dropWhile hp.1] at hcut
        exact ⟨.inl hp, hcut⟩
      · rw [covers_dropWhile (Std.le_trans hlo (Std.le_of_lt (hlater hp)))] at hcut
        exact ⟨.inr hp, hcut⟩
    · rintro ⟨hp | hp, hcut⟩
      · rw [covers_dropWhile hp.1]
        exact .inl ⟨hp, hcut⟩
      · rw [covers_dropWhile (Std.le_trans hlo (Std.le_of_lt (hlater hp)))]
        exact .inr ⟨hp, hcut⟩

@[simp] theorem mem_difference {s t : IntervalSet α} {p : α} :
    p ∈ s.difference t ↔ p ∈ s ∧ p ∉ t :=
  covers_leftovers s.canonical t.canonical p

/-- The first interval of a canonical list is fixed by the points alone: it begins at the least one, and its end
is the first point behind it that is missing. -/
theorem head_unique {i j : Interval α} {l m : List (Interval α)} (hl : Canonical (i :: l))
    (hm : Canonical (j :: m)) (h : ∀ p, Covers (i :: l) p ↔ Covers (j :: m) p) : i = j := by
  have hi := hl.1 i (by simp)
  have hj := hm.1 j (by simp)
  have hlo : i.lo = j.lo :=
    Std.le_antisymm (Covers.lo_le hl ((h _).2 (Covers.lo hm))) (Covers.lo_le hm ((h _).1 (Covers.lo hl)))
  have notBefore {i j : Interval α} {l m : List (Interval α)} (hl : Canonical (i :: l))
      (hi : i.lo < i.hi) (hlo : i.lo = j.lo) (h : ∀ p, Covers (j :: m) p → Covers (i :: l) p) :
      j.hi ≤ i.hi := by
    apply Std.not_lt.1
    intro hlt
    apply Covers.hi_not_mem hl
    apply h
    exact Covers.cons.2 (.inl ⟨hlo ▸ Std.le_of_lt hi, hlt⟩)
  have hhi : i.hi = j.hi :=
    Std.le_antisymm (notBefore hm hj hlo.symm fun p => (h p).1) (notBefore hl hi hlo fun p => (h p).2)
  exact Interval.ext hlo hhi

theorem tail_covers {i : Interval α} {l m : List (Interval α)} (hl : Canonical (i :: l))
    (h : ∀ p, Covers (i :: l) p → Covers (i :: m) p) (p : α) (hp : Covers l p) : Covers m p := by
  have hbeyond := Covers.hi_lt hl hp
  rcases Covers.cons.1 (h p (Covers.cons.2 (.inr hp))) with hi | hm
  · exact absurd hi.2 (Std.not_lt.2 (Std.le_of_lt hbeyond))
  · exact hm

theorem canonical_unique {l m : List (Interval α)} (hl : Canonical l) (hm : Canonical m)
    (h : ∀ p, Covers l p ↔ Covers m p) : l = m := by
  induction l generalizing m with
  | nil =>
    cases m with
    | nil => rfl
    | cons j m => exact absurd ((h j.lo).2 (Covers.lo hm)) Covers.nil
  | cons i l ih =>
    cases m with
    | nil => exact absurd ((h i.lo).1 (Covers.lo hl)) Covers.nil
    | cons j m =>
      obtain rfl := head_unique hl hm h
      have hrest : l = m := ih hl.tail hm.tail fun p =>
        ⟨tail_covers hl (fun p => (h p).1) p, tail_covers hm (fun p => (h p).2) p⟩
      rw [hrest]

theorem ext_of_mem {s t : IntervalSet α} (h : ∀ p, p ∈ s ↔ p ∈ t) : s = t :=
  IntervalSet.ext (canonical_unique s.canonical t.canonical h)

theorem isEmpty_iff {s : IntervalSet α} : s.isEmpty = true ↔ ∀ p, p ∉ s := by
  constructor
  · intro h p hp
    rw [isEmpty, List.isEmpty_iff] at h
    rw [mem_iff, h] at hp
    exact Covers.nil hp
  · intro h
    have : s = empty := ext_of_mem fun p => iff_of_false (h p) not_mem_empty
    rw [this]
    rfl

theorem bounds_of_mem {s : IntervalSet Nat} {a b : Nat} (h : ∀ p, p ∈ s → a ≤ p ∧ p < b) {i : Interval Nat}
    (hi : i ∈ s.intervals) : i.lo < i.hi ∧ a ≤ i.lo ∧ i.hi ≤ b := by
  have hne : i.lo < i.hi := s.canonical.1 i hi
  have hfirst := h i.lo ⟨i, hi, Nat.le_refl _, hne⟩
  have hend := h (i.hi - 1) ⟨i, hi, by omega, by omega⟩
  omega

end IntervalSet

end LayeredMemory
