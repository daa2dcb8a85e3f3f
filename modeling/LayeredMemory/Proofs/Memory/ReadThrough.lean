import LayeredMemory.Memory.Tree
import LayeredMemory.Proofs.Contents

namespace LayeredMemory

theorem Contents.onto_of_isSome {top base : Contents} {p : Nat} (h : (top p).isSome) :
    top.onto base p = top p := by
  obtain ⟨b, hb⟩ := Option.isSome_iff_exists.1 h
  rw [onto, hb, Option.some_or]

theorem Contents.onto_of_none {top base : Contents} {p : Nat} (h : top p = none) :
    top.onto base p = base p := by
  rw [onto, h, Option.none_or]

namespace Piece

variable {p q : Piece} {l m : List Piece}

def interval (p : Piece) : Interval Nat := ⟨p.1, p.1 + p.2.width.bytes, Nat.le_add_right _ _⟩

def Disjoint (p q : Piece) : Prop := ∀ x, ¬ (x ∈ p.interval ∧ x ∈ q.interval)

theorem Disjoint.symm (h : p.Disjoint q) : q.Disjoint p := fun x hx => h x ⟨hx.2, hx.1⟩

theorem end_le_of_disjoint (hle : p.1 ≤ q.1) (hpos : 0 < q.2.width.bytes) (h : p.Disjoint q) :
    p.1 + p.2.width.bytes ≤ q.1 := by
  apply Nat.le_of_not_lt
  intro hlt
  apply h q.1
  exact ⟨⟨hle, hlt⟩, Nat.le_refl q.1, by change q.1 < q.1 + q.2.width.bytes; omega⟩

theorem pairwise_starts (h : (l.map interval).Pairwise (fun i j => i.hi < j.lo)) :
    l.Pairwise (fun p q => startsFirst p q = true) := by
  refine (List.pairwise_map.1 h).imp fun {p q} hpq => ?_
  apply decide_eq_true
  change p.1 + p.2.width.bytes < q.1 at hpq
  omega

theorem pairwise_disjoint (h : (l.map interval).Pairwise (fun i j => i.hi < j.lo)) :
    l.Pairwise Disjoint := by
  refine (List.pairwise_map.1 h).imp fun {p q} hpq x hx => ?_
  have hhi := hx.1.2
  have hlo := hx.2.1
  omega

theorem starts_merge (hl : l.Pairwise (fun p q => startsFirst p q = true))
    (hm : m.Pairwise (fun p q => startsFirst p q = true)) :
    (l.merge m startsFirst).Pairwise (fun p q => startsFirst p q = true) := by
  apply List.pairwise_merge _ _ _ _ hl hm
  · simp only [startsFirst, decide_eq_true_eq]
    intro p q r
    exact Nat.le_trans
  · simp only [startsFirst, Bool.or_eq_true, decide_eq_true_eq]
    intro p q
    exact Nat.le_total p.1 q.1

theorem ascending_merge (hl : (l.map interval).Pairwise (fun i j => i.hi < j.lo))
    (hm : (m.map interval).Pairwise (fun i j => i.hi < j.lo))
    (hcross : ∀ p ∈ l, ∀ q ∈ m, p.Disjoint q) (hpos : ∀ p ∈ l.merge m startsFirst, 0 < p.2.width.bytes) :
    (l.merge m startsFirst).Pairwise (fun p q => p.1 + p.2.width.bytes ≤ q.1) := by
  have hdisjoint : (l.merge m startsFirst).Pairwise Disjoint := by
    apply (List.Perm.pairwise_iff Disjoint.symm (List.merge_perm_append _)).2
    exact List.pairwise_append.2 ⟨pairwise_disjoint hl, pairwise_disjoint hm, hcross⟩
  have hstarts := starts_merge (pairwise_starts hl) (pairwise_starts hm)
  refine (hstarts.and hdisjoint).imp_of_mem fun {p q} _ hq hpq => ?_
  exact end_le_of_disjoint (of_decide_eq_true hpq.1) (hpos q hq) hpq.2

end Piece

structure PiecesOf (held : Contents) (l : List (Interval Nat)) (pieces : List Piece) : Prop where
  spans : pieces.map Piece.interval = l
  reads : ∀ q ∈ pieces, q.2.Reads held q.1 q.2.width

theorem PiecesOf.cons {held : Contents} {i : Interval Nat} {l : List (Interval Nat)} {tail : List Piece} {e : Expr}
    (hwidth : e.width.bytes = i.hi - i.lo) (he : e.Reads held i.lo e.width) (h : PiecesOf held l tail) :
    PiecesOf held (i :: l) ((i.lo, e) :: tail) := by
  constructor
  · rw [List.map_cons, h.spans]
    congr 1
    apply Interval.ext
    · rfl
    · have hle := i.lo_le_hi
      change i.lo + e.width.bytes = i.hi
      omega
  · intro q hq
    rcases List.mem_cons.1 hq with rfl | hq
    · exact he
    · exact h.reads q hq

theorem PiecesOf.interval_mem {held : Contents} {l : List (Interval Nat)} {pieces : List Piece}
    (h : PiecesOf held l pieces) {q : Piece} (hq : q ∈ pieces) : q.interval ∈ l := by
  rw [← h.spans]
  exact List.mem_map_of_mem hq

theorem PiecesOf.exists_piece {held : Contents} {l : List (Interval Nat)} {pieces : List Piece}
    (h : PiecesOf held l pieces) {i : Interval Nat} (hi : i ∈ l) : ∃ q ∈ pieces, q.interval = i := by
  rw [← h.spans] at hi
  exact List.mem_map.1 hi

namespace Memory

variable {load base top : Loads} {held low high : Contents} {a : Nat} {w : Width}

theorem readPieces_cons (load : Loads) {i : Interval Nat} (rest : List (Interval Nat)) {r : Option Expr}
    (hwidth : i.hi - i.lo < 2 ^ 32) (h : (load i.lo ⟨i.hi - i.lo, hwidth⟩).outcome = .ok r) :
    (readPieces load (i :: rest)).outcome = match r with
      | none => .ok none
      | some e => (readPieces load rest).outcome.map (·.map ((i.lo, e) :: ·)) := by
  rw [readPieces, Address.widthOf_ok hwidth, Traced.outcome_bind_ok (Traced.outcome_liftM _),
    Traced.outcome_bind_ok h]
  cases r with
  | none => rfl
  | some e =>
    cases hrest : (readPieces load rest).outcome with
    | ok pieces => exact Traced.outcome_bind_ok hrest _
    | error fault => exact Traced.outcome_bind_error hrest _

theorem present_iff_mem {i : Interval Nat} (hwidth : i.hi - i.lo < 2 ^ 32) :
    held.Present i.lo ⟨i.hi - i.lo, hwidth⟩ ↔ ∀ p, p ∈ i → (held p).isSome := by
  have hspan : i.lo + (i.hi - i.lo) = i.hi := by
    have hle := i.lo_le_hi
    omega
  apply forall_congr'
  intro p
  simp only [Interval.mem_iff, hspan, and_imp]

theorem readPieces_ok (h : LoadsFrom load held) {l : List (Interval Nat)} (hne : ∀ i ∈ l, i.lo < i.hi)
    (hlast : ∀ i ∈ l, i.hi ≤ Address.last) (hwidth : ∀ i ∈ l, i.hi - i.lo < 2 ^ 32) :
    ∃ r, (readPieces load l).outcome = .ok r ∧ (r.isSome ↔ ∀ p, Covers l p → (held p).isSome) ∧
      ∀ pieces, r = some pieces → PiecesOf held l pieces := by
  induction l with
  | nil =>
    refine ⟨some [], rfl, by simp, fun pieces hp => ?_⟩
    obtain rfl := Option.some.inj hp
    exact ⟨rfl, by simp⟩
  | cons i rest ih =>
    have hi := hne i (by simp)
    have hend := hlast i (by simp)
    obtain ⟨r, hload, hsome, hreads⟩ :=
      h i.lo ⟨i.hi - i.lo, hwidth i (by simp)⟩ (by dsimp only; omega) (by dsimp only; omega)
    obtain ⟨t, hrest, htail, hpieces⟩ := ih (fun j hj => hne j (.tail _ hj))
      (fun j hj => hlast j (.tail _ hj)) (fun j hj => hwidth j (.tail _ hj))
    rw [present_iff_mem] at hsome
    have hcons := readPieces_cons load rest (hwidth i (by simp)) hload
    simp only [Covers.cons, or_imp, forall_and]
    rw [hcons]
    cases r with
    | none =>
      refine ⟨none, rfl, ?_, fun pieces hp => by cases hp⟩
      constructor
      · intro hnone
        cases hnone
      · intro hall
        exact hsome.2 hall.1
    | some e =>
      obtain ⟨hwidth', hshows⟩ := hreads e rfl
      refine ⟨t.map ((i.lo, e) :: ·), by rw [hrest]; rfl, ?_, ?_⟩
      · rw [Option.isSome_map, htail]
        exact (and_iff_right (hsome.1 rfl)).symm
      · intro pieces hp
        obtain ⟨tail, rfl, rfl⟩ := Option.map_eq_some_iff.1 hp
        apply PiecesOf.cons
        · rw [hwidth']
        · rw [hwidth']
          exact ⟨hwidth', hshows⟩
        · exact hpieces tail rfl

theorem tiles_merge {gaps rest : IntervalSet Nat} {lower upper : List Piece}
    (hlower : PiecesOf low gaps.intervals lower) (hupper : PiecesOf high rest.intervals upper)
    (hgaps : ∀ p, p ∈ gaps → a ≤ p ∧ p < a + w.bytes)
    (hrest : ∀ p, p ∈ rest ↔ (a ≤ p ∧ p < a + w.bytes) ∧ p ∉ gaps) :
    Tiles (a + w.bytes) a (lower.merge upper Piece.startsFirst) := by
  have hmem : ∀ q, q ∈ lower.merge upper Piece.startsFirst ↔ q ∈ lower ∨ q ∈ upper := by
    intro q
    rw [(List.merge_perm_append _).mem_iff, List.mem_append]
  have hpos : ∀ q ∈ lower.merge upper Piece.startsFirst, 0 < q.2.width.bytes := by
    intro q hq
    have hspan : q.interval.lo < q.interval.hi := by
      rcases (hmem q).1 hq with hq | hq
      · exact gaps.canonical.1 _ (hlower.interval_mem hq)
      · exact rest.canonical.1 _ (hupper.interval_mem hq)
    change q.1 < q.1 + q.2.width.bytes at hspan
    omega
  apply tiles_of_covers (Nat.le_add_right a w.bytes) hpos
  · apply Piece.ascending_merge
    · rw [hlower.spans]
      exact gaps.canonical.2
    · rw [hupper.spans]
      exact rest.canonical.2
    · intro p hp q hq x hx
      exact ((hrest x).1 ⟨_, hupper.interval_mem hq, hx.2⟩).2 ⟨_, hlower.interval_mem hp, hx.1⟩
    · exact hpos
  · intro x
    constructor
    · rintro ⟨q, hq, hx⟩
      rcases (hmem q).1 hq with hq | hq
      · exact hgaps x ⟨_, hlower.interval_mem hq, hx⟩
      · exact ((hrest x).1 ⟨_, hupper.interval_mem hq, hx⟩).1
    · intro hx
      by_cases hgap : x ∈ gaps
      · obtain ⟨i, hi, hxi⟩ := hgap
        obtain ⟨q, hq, rfl⟩ := hlower.exists_piece hi
        exact ⟨q, (hmem q).2 (.inl hq), hxi⟩
      · obtain ⟨i, hi, hxi⟩ := (hrest x).2 ⟨hx, hgap⟩
        obtain ⟨q, hq, rfl⟩ := hupper.exists_piece hi
        exact ⟨q, (hmem q).2 (.inr hq), hxi⟩

theorem readPieces_within (h : LoadsFrom load held) (hlast : a + w.bytes ≤ Address.last)
    {s : IntervalSet Nat} (hs : ∀ p, p ∈ s → a ≤ p ∧ p < a + w.bytes) :
    ∃ r, (readPieces load s.intervals).outcome = .ok r ∧ (r.isSome ↔ ∀ p, p ∈ s → (held p).isSome) ∧
      ∀ pieces, r = some pieces → PiecesOf held s.intervals pieces := by
  have hfits := w.fits
  have hbounds : ∀ i ∈ s.intervals, i.lo < i.hi ∧ a ≤ i.lo ∧ i.hi ≤ a + w.bytes :=
    fun i hi => IntervalSet.bounds_of_mem hs hi
  apply readPieces_ok h
  · intro i hi
    exact (hbounds i hi).1
  · intro i hi
    have := hbounds i hi
    omega
  · intro i hi
    have := hbounds i hi
    omega

theorem shows_of_reads {q : Piece} {s : IntervalSet Nat} {pieces : List Piece} {held' : Contents} {bind : Binding}
    (h : PiecesOf held s.intervals pieces) (hq : q ∈ pieces)
    (hs : ∀ p, p ∈ s → held p = held' p ∧ (held'.under bind p).isSome) :
    q.Shows bind (held'.under bind) := by
  have hagree : ∀ p, q.1 ≤ p → p < q.1 + q.2.width.bytes → held p = held' p ∧ (held'.under bind p).isSome := by
    intro p hlo hhi
    exact hs p ⟨_, h.interval_mem hq, hlo, hhi⟩
  have hreads := (h.reads q hq).congr fun p hlo hhi => (hagree p hlo hhi).1
  exact hreads.2 bind fun p hlo hhi => (hagree p hlo hhi).2

section

variable {gaps rest : IntervalSet Nat}

theorem present_onto_iff (hgaps : ∀ p, p ∈ gaps ↔ (a ≤ p ∧ p < a + w.bytes) ∧ high p = none) :
    (high.onto low).Present a w ↔ ∀ p, p ∈ gaps → (low p).isSome := by
  constructor
  · intro hall p hp
    obtain ⟨⟨hlo, hhi⟩, hnone⟩ := (hgaps p).1 hp
    have hlow : high.onto low p = low p := Contents.onto_of_none hnone
    rw [← hlow]
    exact hall p hlo hhi
  · intro hall p hlo hhi
    cases hp : high p with
    | none =>
      rw [Contents.onto_of_none hp]
      exact hall p ((hgaps p).2 ⟨⟨hlo, hhi⟩, hp⟩)
    | some b =>
      have hsome : (high p).isSome := by rw [hp]; rfl
      rw [Contents.onto_of_isSome hsome]
      exact hsome

theorem isSome_of_mem_rest (hgaps : ∀ p, p ∈ gaps ↔ (a ≤ p ∧ p < a + w.bytes) ∧ high p = none)
    (hrest : ∀ p, p ∈ rest ↔ (a ≤ p ∧ p < a + w.bytes) ∧ p ∉ gaps) :
    ∀ p, p ∈ rest → (high p).isSome := by
  intro p hp
  obtain ⟨hin, hout⟩ := (hrest p).1 hp
  apply Option.isSome_iff_ne_none.2
  intro hnone
  exact hout ((hgaps p).2 ⟨hin, hnone⟩)

theorem compose_merge (hw : 0 < w.bytes) {lower upper : List Piece}
    (hgaps : ∀ p, p ∈ gaps ↔ (a ≤ p ∧ p < a + w.bytes) ∧ high p = none)
    (hrest : ∀ p, p ∈ rest ↔ (a ≤ p ∧ p < a + w.bytes) ∧ p ∉ gaps)
    (hlower : PiecesOf low gaps.intervals lower) (hupper : PiecesOf high rest.intervals upper) :
    ∃ e, compose a w (lower.merge upper Piece.startsFirst) = .ok (some e) ∧ e.Reads (high.onto low) a w := by
  have htiles := tiles_merge hlower hupper (fun p hp => ((hgaps p).1 hp).1) hrest
  obtain ⟨e, hcompose, hwidth, hshows⟩ := compose_tiles hw htiles
  refine ⟨e, hcompose, hwidth, fun bind hbound => ?_⟩
  apply hshows
  intro q hq
  rw [(List.merge_perm_append _).mem_iff, List.mem_append] at hq
  rcases hq with hq | hq
  · apply shows_of_reads hlower hq
    intro p hp
    obtain ⟨⟨hlo, hhi⟩, hnone⟩ := (hgaps p).1 hp
    exact ⟨(Contents.onto_of_none hnone).symm, hbound p hlo hhi⟩
  · apply shows_of_reads hupper hq
    intro p hp
    obtain ⟨⟨hlo, hhi⟩, -⟩ := (hrest p).1 hp
    exact ⟨(Contents.onto_of_isSome (isSome_of_mem_rest hgaps hrest p hp)).symm, hbound p hlo hhi⟩

theorem readSplit_ok (hbase : LoadsFrom base low) (htop : LoadsFrom top high) (hw : 0 < w.bytes)
    (hlast : a + w.bytes ≤ Address.last)
    (hgaps : ∀ p, p ∈ gaps ↔ (a ≤ p ∧ p < a + w.bytes) ∧ high p = none)
    (hrest : ∀ p, p ∈ rest ↔ (a ≤ p ∧ p < a + w.bytes) ∧ p ∉ gaps) :
    ∃ r, (readSplit base top gaps rest a w).outcome = .ok r ∧
      (r.isSome ↔ (high.onto low).Present a w) ∧ ∀ e, r = some e → e.Reads (high.onto low) a w := by
  obtain ⟨r, hr, hsome, hlower⟩ := readPieces_within hbase hlast fun p hp => ((hgaps p).1 hp).1
  obtain ⟨t, ht, htsome, hupper⟩ := readPieces_within htop hlast fun p hp => ((hrest p).1 hp).1
  rw [present_onto_iff hgaps]
  rw [readSplit, Traced.outcome_bind_ok (Traced.outcome_record _), Traced.outcome_bind_ok hr]
  cases r with
  | none => exact ⟨none, rfl, hsome, fun e he => by cases he⟩
  | some lower =>
    obtain ⟨upper, rfl⟩ := Option.isSome_iff_exists.1 (htsome.2 (isSome_of_mem_rest hgaps hrest))
    obtain ⟨e, hcompose, hreads⟩ := compose_merge hw hgaps hrest (hlower lower rfl) (hupper upper rfl)
    dsimp only
    rw [Traced.outcome_bind_ok ht]
    refine ⟨some e, hcompose, hsome, fun e' he => ?_⟩
    obtain rfl := Option.some.inj he
    exact hreads

end

theorem present_congr {held' : Contents} (h : ∀ p, a ≤ p → p < a + w.bytes → held p = held' p) :
    held.Present a w ↔ held'.Present a w := by
  apply forall_congr'
  intro p
  apply imp_congr_right
  intro hlo
  apply imp_congr_right
  intro hhi
  rw [h p hlo hhi]

theorem loads_congr {held' : Contents} (h : LoadsFrom load held) (hw : 0 < w.bytes)
    (hlast : a + w.bytes ≤ Address.last) (heq : ∀ p, a ≤ p → p < a + w.bytes → held p = held' p) :
    ∃ r, (load a w).outcome = .ok r ∧ (r.isSome ↔ held'.Present a w) ∧ ∀ e, r = some e → e.Reads held' a w := by
  obtain ⟨r, hr, hsome, hreads⟩ := h a w hw hlast
  refine ⟨r, hr, ?_, fun e he => (hreads e he).congr heq⟩
  rw [hsome]
  exact present_congr heq

theorem readThrough_ok (hbase : LoadsFrom base low) (htop : LoadsFrom top high) {gaps : IntervalSet Nat}
    (hw : 0 < w.bytes) (hlast : a + w.bytes ≤ Address.last)
    (hgaps : ∀ p, p ∈ gaps ↔ p ∈ Address.range a w ∧ high p = none) :
    ∃ r, (readThrough base top gaps a w).outcome = .ok r ∧
      (r.isSome ↔ (high.onto low).Present a w) ∧ ∀ e, r = some e → e.Reads (high.onto low) a w := by
  unfold readThrough
  by_cases hempty : gaps.isEmpty
  · rw [if_pos hempty]
    apply loads_congr htop hw hlast
    intro p hlo hhi
    symm
    apply Contents.onto_of_isSome
    apply Option.isSome_iff_ne_none.2
    intro hnone
    exact IntervalSet.isEmpty_iff.1 hempty p ((hgaps p).2 ⟨⟨hlo, hhi⟩, hnone⟩)
  · rw [if_neg hempty, Address.requested_ok hlast, Traced.outcome_bind_ok (Traced.outcome_liftM _)]
    by_cases hwhole : gaps = .ofInterval (Address.range a w)
    · rw [if_pos hwhole]
      apply loads_congr hbase hw hlast
      intro p hlo hhi
      have hp : p ∈ gaps := by
        rw [hwhole, IntervalSet.mem_ofInterval]
        exact ⟨hlo, hhi⟩
      exact (Contents.onto_of_none ((hgaps p).1 hp).2).symm
    · rw [if_neg hwhole]
      apply readSplit_ok hbase htop hw hlast hgaps
      intro p
      rw [IntervalSet.mem_difference, IntervalSet.mem_ofInterval]
      exact Iff.rfl

end Memory

end LayeredMemory
