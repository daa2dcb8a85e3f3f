import LayeredMemory.Proofs.IntervalSet.Membership

set_option linter.unusedSectionVars false

namespace LayeredMemory

def bisect (passed : Nat → Bool) (first last : Nat) : Nat :=
  if first < last then
    let middle := first + (last - first) / 2
    if passed middle then bisect passed (middle + 1) last else bisect passed first middle
  else first
termination_by last - first

theorem bisect_spec {passed : Nat → Bool} {first last : Nat} (hle : first ≤ last)
    (hearlier : ∀ m n, m ≤ n → passed n = true → passed m = true) :
    bisect passed first last ≤ last ∧
      (∀ n, first ≤ n → n < bisect passed first last → passed n = true) ∧
      ∀ n, bisect passed first last ≤ n → n < last → passed n = false := by
  fun_induction bisect passed first last with
  | case1 first last hlt middle hpassed ih =>
    have hmiddle : middle < last := by omega
    obtain ⟨hbound, hbefore, hafter⟩ := ih hmiddle
    refine ⟨hbound, fun n _ hn => ?_, hafter⟩
    by_cases hnm : n ≤ middle
    · exact hearlier n middle hnm hpassed
    · exact hbefore n (by omega) hn
  | case2 first last hlt middle hpassed ih =>
    have hmiddle : first ≤ middle ∧ middle < last := by omega
    obtain ⟨hbound, hbefore, hafter⟩ := ih hmiddle.1
    refine ⟨by omega, hbefore, fun n hn _ => ?_⟩
    by_cases hnm : n < middle
    · exact hafter n hn hnm
    · exact Bool.eq_false_iff.2 fun h => hpassed (hearlier middle n (by omega) h)
  | case3 first last hlt => exact ⟨hle, by omega, by omega⟩

theorem bisect_eq {passed : Nat → Bool} {k last : Nat} (hk : k ≤ last) (h : ∀ n, passed n = true ↔ n < k) :
    bisect passed 0 last = k := by
  have hearlier : ∀ m n, m ≤ n → passed n = true → passed m = true := fun m n hmn hn =>
    (h m).2 (Nat.lt_of_le_of_lt hmn ((h n).1 hn))
  obtain ⟨hbound, hbefore, hafter⟩ := bisect_spec (Nat.zero_le last) hearlier
  apply Nat.le_antisymm
  · apply Nat.not_lt.1
    intro hlt
    exact Nat.lt_irrefl k ((h k).1 (hbefore k (Nat.zero_le k) hlt))
  · apply Nat.not_lt.1
    intro hlt
    have hfail := hafter _ (Nat.le_refl _) (Nat.lt_of_lt_of_le hlt hk)
    rw [(h _).2 hlt] at hfail
    cases hfail

variable {α : Type} [LE α] [LT α] [DecidableLE α] [DecidableLT α] [Std.IsLinearOrder α]
  [Std.LawfulOrderLT α]

namespace IntervalSet

theorem contains_iff {s : IntervalSet α} {p : α} : s.contains p = true ↔ p ∈ s := by
  have hcovers : Covers (s.intervals.dropWhile (fun i => decide (i.hi ≤ p))) p ↔ Covers s.intervals p :=
    covers_dropWhile (Std.le_refl p)
  have hafter := lt_hi_of_mem_dropWhile s.canonical p
  have hc := canonical_dropWhile s.canonical (fun i => decide (i.hi ≤ p))
  rw [mem_iff, ← hcovers, contains]
  cases hd : s.intervals.dropWhile (fun i => decide (i.hi ≤ p)) with
  | nil => simp
  | cons i l =>
    rw [hd] at hafter hc
    simp only [decide_eq_true_eq]
    constructor
    · exact fun hi => Covers.cons.2 (.inl hi)
    · intro h
      rcases Covers.cons.1 h with hi | hl
      · exact hi
      · exact absurd (hafter i (.head _)) (Std.not_lt.2 (Std.le_of_lt (Covers.hi_lt hc hl)))

theorem eq_iff_contains {s t : IntervalSet α} : s = t ↔ ∀ p, s.contains p = t.contains p := by
  constructor
  · rintro rfl p
    rfl
  · intro h
    apply ext_of_mem
    intro p
    rw [← contains_iff, ← contains_iff, h p]

def passed (s : IntervalSet α) (p : α) (n : Nat) : Bool :=
  (s.get? n).any (fun i => decide (i.hi ≤ p))

def containsByHalving (s : IntervalSet α) (p : α) : Bool :=
  (s.get? (bisect (s.passed p) 0 s.size)).any (fun i => decide (p ∈ i))

theorem passed_iff {s : IntervalSet α} {p : α} {n : Nat} :
    s.passed p n = true ↔ ∃ i, s.get? n = some i ∧ i.hi ≤ p := by
  simp [passed, Option.any_eq_true]

theorem lt_size_of_get? {s : IntervalSet α} {n : Nat} {i : Interval α} (h : s.get? n = some i) :
    n < s.size :=
  (List.getElem?_eq_some_iff.1 h).1

theorem drop_of_get? {s : IntervalSet α} {n : Nat} {i : Interval α} (h : s.get? n = some i) :
    s.intervals.drop n = i :: s.intervals.drop (n + 1) := by
  obtain ⟨hlt, rfl⟩ := List.getElem?_eq_some_iff.1 h
  exact List.drop_eq_getElem_cons hlt

theorem drop_of_get?_none {s : IntervalSet α} {n : Nat} (h : s.get? n = none) : s.intervals.drop n = [] :=
  List.drop_of_length_le (List.getElem?_eq_none_iff.1 h)

theorem hi_lt_lo_of_get? {s : IntervalSet α} {m n : Nat} {i j : Interval α} (hmn : m < n)
    (hi : s.get? m = some i) (hj : s.get? n = some j) : i.hi < j.lo := by
  obtain ⟨hm, rfl⟩ := List.getElem?_eq_some_iff.1 hi
  obtain ⟨hn, rfl⟩ := List.getElem?_eq_some_iff.1 hj
  exact List.pairwise_iff_getElem.1 s.canonical.2 m n hm hn hmn

theorem passed_of_le {s : IntervalSet α} {p : α} {m n : Nat} (hmn : m ≤ n)
    (hn : s.passed p n = true) : s.passed p m = true := by
  obtain ⟨j, hj, hp⟩ := passed_iff.1 hn
  rcases Nat.lt_or_eq_of_le hmn with hlt | rfl
  · have hm : m < s.intervals.length := Nat.lt_trans hlt (lt_size_of_get? hj)
    have hi : s.get? m = some s.intervals[m] := List.getElem?_eq_getElem hm
    have hgap := hi_lt_lo_of_get? hlt hi hj
    have hend : j.lo ≤ p := Std.le_trans j.lo_le_hi hp
    exact passed_iff.2 ⟨_, hi, Std.le_of_lt (Std.lt_of_lt_of_le hgap hend)⟩
  · exact hn

theorem containsByHalving_iff {s : IntervalSet α} {p : α} :
    s.containsByHalving p = true ↔ p ∈ s := by
  obtain ⟨-, hbefore, hafter⟩ :=
    bisect_spec (Nat.zero_le s.size) (fun m n => passed_of_le (s := s) (p := p) (m := m) (n := n))
  rw [containsByHalving, Option.any_eq_true]
  constructor
  · rintro ⟨i, hi, hp⟩
    exact ⟨i, List.mem_of_getElem? hi, of_decide_eq_true hp⟩
  · rintro ⟨i, hi, hp⟩
    obtain ⟨n, hn⟩ := List.mem_iff_getElem?.1 hi
    have hsize := lt_size_of_get? (s := s) hn
    -- An interval found before that of `p` would end after `p`, one found after it would pass it.
    rcases Nat.lt_trichotomy (bisect (s.passed p) 0 s.size) n with hlt | heq | hgt
    · have hm : bisect (s.passed p) 0 s.size < s.intervals.length := Nat.lt_trans hlt hsize
      have hfound : s.get? _ = some s.intervals[bisect (s.passed p) 0 s.size] :=
        List.getElem?_eq_getElem hm
      have hgap := hi_lt_lo_of_get? hlt hfound hn
      have hpassed := passed_iff.2 ⟨_, hfound, Std.le_of_lt (Std.lt_of_lt_of_le hgap hp.1)⟩
      rw [hafter _ (Nat.le_refl _) hm] at hpassed
      exact absurd hpassed Bool.false_ne_true
    · exact ⟨i, heq ▸ hn, decide_eq_true hp⟩
    · obtain ⟨j, hj, hend⟩ := passed_iff.1 (hbefore n (Nat.zero_le n) hgt)
      obtain rfl : i = j := Option.some.inj (hn.symm.trans hj)
      exact absurd hp.2 (Std.not_lt.2 hend)

theorem containsByHalving_eq (s : IntervalSet α) (p : α) :
    s.containsByHalving p = s.contains p := by
  rw [Bool.eq_iff_iff, containsByHalving_iff, contains_iff]

theorem union_comm (s t : IntervalSet α) : s.union t = t.union s := by
  apply ext_of_mem
  intro p
  simp only [mem_union]
  exact Or.comm

theorem intersect_union_difference (s t : IntervalSet α) :
    (s.intersect t).union (s.difference t) = s := by
  apply ext_of_mem
  intro p
  simp only [mem_union, mem_intersect, mem_difference]
  by_cases ht : p ∈ t <;> simp [ht]

theorem ofList_intervals (s : IntervalSet α) : ofList s.intervals = s := by
  apply ext_of_mem
  intro p
  exact mem_ofList

inductive Composition (α : Type) [LE α] where
  | ofList (l : List (Interval α))
  | ofInterval (i : Interval α)
  | empty
  | union (s t : Composition α)
  | intersect (s t : Composition α)
  | difference (s t : Composition α)

namespace Composition

def set : Composition α → IntervalSet α
  | .ofList l => IntervalSet.ofList l
  | .ofInterval i => IntervalSet.ofInterval i
  | .empty => IntervalSet.empty
  | .union s t => s.set.union t.set
  | .intersect s t => s.set.intersect t.set
  | .difference s t => s.set.difference t.set

def Denotes : Composition α → α → Prop
  | .ofList l, p => ∃ i ∈ l, i.lo ≤ p ∧ p < i.hi
  | .ofInterval i, p => i.lo ≤ p ∧ p < i.hi
  | .empty, _ => False
  | .union s t, p => s.Denotes p ∨ t.Denotes p
  | .intersect s t, p => s.Denotes p ∧ t.Denotes p
  | .difference s t, p => s.Denotes p ∧ ¬ t.Denotes p

theorem mem_set {c : Composition α} {p : α} : p ∈ c.set ↔ c.Denotes p := by
  induction c with
  | ofList l => exact mem_ofList
  | ofInterval i => exact mem_ofInterval
  | empty => exact iff_of_false not_mem_empty id
  | union s t ihs iht => rw [set, mem_union, ihs, iht, Denotes]
  | intersect s t ihs iht => rw [set, mem_intersect, ihs, iht, Denotes]
  | difference s t ihs iht => rw [set, mem_difference, ihs, iht, Denotes]

end Composition

theorem ascending_of_canonical {l : List (Interval α)} (h : Canonical l) :
    l.Pairwise (fun i j => i.lo < j.lo) := by
  refine h.2.imp_of_mem fun {i j} hi _ hgap => ?_
  exact Std.lt_trans (h.1 i hi) hgap

theorem equality_is_set_equality (c d : Composition α) :
    ((∀ i ∈ c.set.intervals, i.lo < i.hi) ∧
      c.set.intervals.Pairwise (fun i j => i.lo < j.lo) ∧
      c.set.intervals.Pairwise (fun i j => i.hi < j.lo)) ∧
    (∀ p, c.set.contains p = c.set.containsByHalving p ∧
      (c.set.contains p = true ↔ ∃ i ∈ c.set.intervals, i.lo ≤ p ∧ p < i.hi) ∧
      (c.set.contains p = true ↔ c.Denotes p)) ∧
    (c.set = d.set ↔ ∀ p, c.set.contains p = d.set.contains p) ∧
    c.set.union d.set = d.set.union c.set ∧
    (c.set.intersect d.set).union (c.set.difference d.set) = c.set ∧
    ofList c.set.intervals = c.set := by
  refine ⟨⟨c.set.canonical.1, ascending_of_canonical c.set.canonical, c.set.canonical.2⟩,
    fun p => ⟨(containsByHalving_eq c.set p).symm, contains_iff, ?_⟩, eq_iff_contains,
    union_comm c.set d.set, intersect_union_difference c.set d.set, ofList_intervals c.set⟩
  rw [contains_iff, Composition.mem_set]

theorem equality_of_touching_parts :
    (Composition.ofList (α := Nat) [⟨5, 9, by decide⟩, ⟨3, 3, by decide⟩, ⟨0, 5, by decide⟩]).set =
      (Composition.difference (.ofInterval ⟨0, 12, by decide⟩) (.ofInterval ⟨9, 20, by decide⟩)).set := by
  let parts : Composition Nat := .ofList [⟨5, 9, by decide⟩, ⟨3, 3, by decide⟩, ⟨0, 5, by decide⟩]
  let rest : Composition Nat := .difference (.ofInterval ⟨0, 12, by decide⟩) (.ofInterval ⟨9, 20, by decide⟩)
  obtain ⟨-, hparts, heq, -⟩ := equality_is_set_equality parts rest
  obtain ⟨-, hrest, -⟩ := equality_is_set_equality rest parts
  have hdenotes (p : Nat) : parts.Denotes p ↔ rest.Denotes p := by
    simp only [parts, rest, Composition.Denotes, List.mem_cons, List.not_mem_nil, or_false,
      exists_eq_or_imp, exists_eq_left]
    omega
  exact heq.2 fun p => Bool.eq_iff_iff.2 ((hparts p).2.2.trans ((hdenotes p).trans (hrest p).2.2.symm))

end IntervalSet

end LayeredMemory
