import LayeredMemory.Proofs.Sparse.Overwrite

namespace LayeredMemory

namespace Entry

variable {e : Entry} {l : List Entry} {p a stop : Nat}

theorem le_coveredTo (h : Ordered l) (hover : ∀ e ∈ l, a < e.stop) : a ≤ SparseLayer.coveredTo a l := by
  induction l generalizing a with
  | nil => exact Nat.le_refl a
  | cons e l ih =>
    rw [SparseLayer.coveredTo]
    split
    · exact Nat.le_refl a
    · have hstop := hover e (by simp)
      have hrest := ih (a := e.stop) h.tail fun f hf => by
        have := h.stop_le_start f hf
        have := h.nonempty f (.tail _ hf)
        omega
      omega

theorem contains_of_lt_coveredTo (h : Ordered l) (hover : ∀ e ∈ l, a < e.stop) (hlo : a ≤ p)
    (hhi : p < SparseLayer.coveredTo a l) : ∃ e ∈ l, e.Contains p := by
  induction l generalizing a with
  | nil =>
    change p < a at hhi
    omega
  | cons e l ih =>
    rw [SparseLayer.coveredTo] at hhi
    split at hhi
    · omega
    · by_cases hp : p < e.stop
      · exact ⟨e, by simp, by omega, hp⟩
      · have hlater : ∀ f ∈ l, e.stop < f.stop := by
          intro f hf
          have := h.stop_le_start f hf
          have := h.nonempty f (.tail _ hf)
          omega
        obtain ⟨f, hf, hc⟩ := ih h.tail hlater (by omega) hhi
        exact ⟨f, .tail _ hf, hc⟩

theorem not_contains_coveredTo (h : Ordered l) (hover : ∀ e ∈ l, a < e.stop) :
    ∀ e ∈ l, ¬ e.Contains (SparseLayer.coveredTo a l) := by
  induction l generalizing a with
  | nil => simp
  | cons e l ih =>
    have hlater : ∀ f ∈ l, e.stop < f.stop := by
      intro f hf
      have := h.stop_le_start f hf
      have := h.nonempty f (.tail _ hf)
      omega
    rw [SparseLayer.coveredTo]
    split
    · intro f hf hc
      have hstart := hc.1
      rcases List.mem_cons.1 hf with rfl | hf
      · omega
      · have := h.stop_le_start f hf
        have := h.nonempty e (by simp)
        omega
    · intro f hf
      rcases List.mem_cons.1 hf with rfl | hf
      · intro hc
        have hreach := le_coveredTo h.tail hlater
        have := hc.2
        omega
      · exact ih h.tail hlater f hf

def toPiece (e : Entry) : Piece := (e.start, e.slice.shifted.resized e.slice.width)

theorem width_toPiece (e : Entry) : e.toPiece.2.width = e.slice.width := Expr.width_resized _ _

theorem end_toPiece (e : Entry) : e.toPiece.1 + e.toPiece.2.width.bytes = e.stop := by
  rw [width_toPiece]
  rfl

theorem piece_eq (h : e.Overlaps a stop) (hne : e.start < e.stop) (hlt : a < stop) :
    e.piece a stop = .ok (e.clip a stop).toPiece := by
  have hslice : (e.clip a stop).slice.lo.bytes < (e.clip a stop).slice.hi.bytes := by
    obtain ⟨hlo, hhi⟩ := h
    have hstart := start_clip stop hlo
    have hstop := stop_clip ⟨hlo, hhi⟩ hlt
    have hwidth := (e.clip a stop).stop_eq
    omega
  rw [piece, within_eq h hlt]
  simp only [bind, Except.bind, Slice.expr_eq hslice]
  rfl

theorem mapM_piece_eq (h : Ordered l) (hlt : a < stop) :
    (l.filter (fun e => decide (e.Overlaps a stop))).mapM (piece a stop) =
      .ok ((restrict a stop l).map toPiece) := by
  rw [restrict, List.map_map]
  apply Except.mapM_ok
  intro e he
  obtain ⟨he, hover⟩ := List.mem_filter.1 he
  exact piece_eq (of_decide_eq_true hover) (h.nonempty e he) hlt

theorem tiles_toPiece (h : Ordered l) (hle : a ≤ stop)
    (hcov : ∀ p, (∃ e ∈ l, e.Contains p) ↔ a ≤ p ∧ p < stop) : Tiles stop a (l.map toPiece) := by
  apply tiles_of_covers hle
  · intro q hq
    obtain ⟨e, he, rfl⟩ := List.mem_map.1 hq
    have hne := h.nonempty e he
    have hstop := e.end_toPiece
    change e.start + e.toPiece.2.width.bytes = e.stop at hstop
    omega
  · apply List.pairwise_map.2
    refine h.ascending.imp fun {e f} hef => ?_
    rw [end_toPiece]
    exact hef
  · intro p
    rw [← hcov p]
    constructor
    · rintro ⟨q, hq, hlo, hhi⟩
      obtain ⟨e, he, rfl⟩ := List.mem_map.1 hq
      rw [end_toPiece] at hhi
      exact ⟨e, he, hlo, hhi⟩
    · rintro ⟨e, he, hlo, hhi⟩
      refine ⟨e.toPiece, List.mem_map_of_mem he, hlo, ?_⟩
      rw [end_toPiece]
      exact hhi

theorem shows_toPiece {bind : Binding} (h : Ordered l) (he : e ∈ l)
    (hbound : ((held l).under bind e.start).isSome) : e.toPiece.Shows bind ((held l).under bind) := by
  have hne := h.nonempty e he
  have hat : ∀ p, e.Contains p → (held l).under bind p = (e.byteAt p).under bind := by
    intro p hp
    rw [Contents.under, h.held_of_mem he hp]
    rfl
  rw [hat e.start ⟨Nat.le_refl _, hne⟩, ValueByte.under, Option.isSome_map] at hbound
  obtain ⟨c, hc⟩ := Option.isSome_iff_exists.1 hbound
  change e.slice.source.evaluate bind = some c at hc
  obtain ⟨d, hd, hbytes⟩ := Slice.evaluate_expr hc
  refine ⟨d, hd, fun i => ?_⟩
  rw [end_toPiece, hbytes]
  change if e.start ≤ e.start + i ∧ e.start + i < e.stop then
    (held l).under bind (e.start + i) = some (if i < e.slice.width.bytes then _ else 0) else _
  have hstop : e.stop = e.start + e.slice.width.bytes := rfl
  by_cases hi : i < e.slice.width.bytes
  · rw [if_pos ⟨by omega, by omega⟩, hat (e.start + i) ⟨by omega, by omega⟩, if_pos hi, ValueByte.under]
    simp only [byteAt, hc, Option.map_some, Nat.add_sub_cancel_left]
  · rw [if_neg (by omega), if_neg hi]

theorem mem_ofList_intervals : p ∈ IntervalSet.ofList (l.map interval) ↔ ∃ e ∈ l, e.Contains p := by
  rw [IntervalSet.mem_ofList]
  constructor
  · rintro ⟨i, hi, hp⟩
    obtain ⟨e, he, rfl⟩ := List.mem_map.1 hi
    exact ⟨e, he, hp⟩
  · rintro ⟨e, he, hp⟩
    exact ⟨e.interval, List.mem_map_of_mem he, hp⟩

end Entry

namespace SparseLayer

variable {m : SparseLayer} {a p : Nat} {w : Width}

theorem overlapping_eq (h : m.Valid) (a stop : Nat) :
    m.overlapping a stop = m.entries.filter (fun e => decide (e.Overlaps a stop)) :=
  Entry.scan_eq h a stop

theorem mem_overlapping (h : m.Valid) {start stop : Nat} {e : Entry} :
    e ∈ m.overlapping start stop ↔ e ∈ m.entries ∧ e.Overlaps start stop := by
  rw [overlapping_eq h, List.mem_filter, decide_eq_true_eq]

theorem ordered_overlapping (h : m.Valid) (start stop : Nat) : Entry.Ordered (m.overlapping start stop) := by
  rw [overlapping_eq h]
  exact h.sublist List.filter_sublist

theorem lt_stop_of_mem_overlapping (h : m.Valid) (start stop : Nat) : ∀ e ∈ m.overlapping start stop, start < e.stop :=
  fun _ he => ((mem_overlapping h).1 he).2.1

theorem le_covered (h : m.Valid) (a stop : Nat) : a ≤ coveredTo a (m.overlapping a stop) :=
  Entry.le_coveredTo (ordered_overlapping h a stop) (lt_stop_of_mem_overlapping h a stop)

theorem isSome_held_of_lt_covered (h : m.Valid) {stop : Nat} (hlo : a ≤ p)
    (hhi : p < coveredTo a (m.overlapping a stop)) : (m.held p).isSome := by
  obtain ⟨e, he, hc⟩ :=
    Entry.contains_of_lt_coveredTo (ordered_overlapping h a stop) (lt_stop_of_mem_overlapping h a stop) hlo hhi
  exact Entry.isSome_held.2 ⟨e, ((mem_overlapping h).1 he).1, hc⟩

theorem held_covered (h : m.Valid) {stop : Nat} (hlt : coveredTo a (m.overlapping a stop) < stop) :
    m.held (coveredTo a (m.overlapping a stop)) = none := by
  have hle := le_covered h a stop
  apply Entry.held_eq_none.2
  intro e he hc
  have hlo := hc.1
  have hhi := hc.2
  have hfound : e ∈ m.overlapping a stop := (mem_overlapping h).2 ⟨he, by omega, by omega⟩
  exact Entry.not_contains_coveredTo (ordered_overlapping h a stop) (lt_stop_of_mem_overlapping h a stop) e hfound hc

theorem covered_iff (h : m.Valid) (a : Nat) (w : Width) :
    ¬ coveredTo a (m.overlapping a (a + w.bytes)) < a + w.bytes ↔ m.held.Present a w := by
  constructor
  · intro hcov p hlo hhi
    have hlt : p < coveredTo a (m.overlapping a (a + w.bytes)) := by omega
    exact isSome_held_of_lt_covered h hlo hlt
  · intro hpresent hgap
    have hsome := hpresent _ (le_covered h a _) hgap
    rw [held_covered h hgap] at hsome
    cases hsome

theorem tiles_restrict (h : m.Valid) (hw : 0 < w.bytes) (hpresent : m.held.Present a w) :
    Tiles (a + w.bytes) a ((Entry.restrict a (a + w.bytes) m.entries).map Entry.toPiece) := by
  have hlt : a < a + w.bytes := by omega
  apply Entry.tiles_toPiece (Entry.ordered_restrict h fun e _ _ => hlt) (Nat.le_of_lt hlt)
  intro p
  rw [← Entry.isSome_held, Entry.held_restrict]
  constructor
  · intro hsome
    by_cases hp : a ≤ p ∧ p < a + w.bytes
    · exact hp
    · rw [if_neg hp] at hsome
      cases hsome
  · intro hp
    rw [if_pos hp]
    exact hpresent p hp.1 hp.2

theorem assemble_eq (h : m.Valid) (hw : 0 < w.bytes) :
    assemble (m.overlapping a (a + w.bytes)) a (a + w.bytes) w =
      compose a w ((Entry.restrict a (a + w.bytes) m.entries).map Entry.toPiece) := by
  rw [assemble, overlapping_eq h, Entry.mapM_piece_eq h (by omega)]
  rfl

theorem assemble_present (h : m.Valid) (hw : 0 < w.bytes) (hpresent : m.held.Present a w) :
    ∃ e, assemble (m.overlapping a (a + w.bytes)) a (a + w.bytes) w = .ok (some e) ∧ e.Reads m.held a w := by
  have hlt : a < a + w.bytes := by omega
  have hordered := Entry.ordered_restrict h fun e _ _ => hlt
  obtain ⟨e, hcompose, hwidth, hshows⟩ := compose_tiles hw (tiles_restrict h hw hpresent)
  refine ⟨e, (assemble_eq h hw).trans hcompose, hwidth, fun bind hbound => ?_⟩
  have hunder : ∀ p, a ≤ p → p < a + w.bytes →
      (Entry.held (Entry.restrict a (a + w.bytes) m.entries)).under bind p = m.held.under bind p := by
    intro p hlo hhi
    rw [Contents.under, Entry.held_restrict, if_pos ⟨hlo, hhi⟩]
    rfl
  refine (hshows bind _ fun q hq => ?_).congr hunder
  obtain ⟨f, hf, rfl⟩ := List.mem_map.1 hq
  obtain ⟨hlo, hne, hhi⟩ := Entry.bounds_of_mem_restrict h (fun e _ _ => hlt) hf
  apply Entry.shows_toPiece hordered hf
  rw [hunder f.start hlo (by omega)]
  exact hbound f.start hlo (by omega)

theorem outcome_load (hw : 0 < w.bytes) (hlast : a + w.bytes ≤ Address.last) :
    (m.load a w).outcome =
      if coveredTo a (m.overlapping a (a + w.bytes)) < a + w.bytes then .ok none
      else assemble (m.overlapping a (a + w.bytes)) a (a + w.bytes) w := by
  rw [load, if_neg (Width.not_isZero hw), Address.rangeEnd_ok hlast]
  change Traced.outcome (if coveredTo a (m.overlapping a (a + w.bytes)) < a + w.bytes then _ else _) = _
  split
  · rfl
  · rfl

theorem outcome_load_present (h : m.Valid) (hw : 0 < w.bytes) (hlast : a + w.bytes ≤ Address.last)
    (hpresent : m.held.Present a w) :
    (m.load a w).outcome = compose a w ((Entry.restrict a (a + w.bytes) m.entries).map Entry.toPiece) := by
  rw [outcome_load hw hlast, if_neg ((covered_iff h a w).2 hpresent), assemble_eq h hw]

theorem load_absent (h : m.Valid) (hw : 0 < w.bytes) (hlast : a + w.bytes ≤ Address.last)
    (habsent : ¬ m.held.Present a w) : (m.load a w).outcome = .ok none := by
  rw [outcome_load hw hlast, if_pos (Classical.not_not.1 fun hgap => habsent ((covered_iff h a w).1 hgap))]

theorem loadsFrom (h : m.Valid) : LoadsFrom m.load m.held := by
  intro a w hw hlast
  by_cases hpresent : m.held.Present a w
  · obtain ⟨e, hassemble, hreads⟩ := assemble_present h hw hpresent
    rw [outcome_load hw hlast, if_neg ((covered_iff h a w).2 hpresent)]
    exact ⟨some e, hassemble, by simpa using hpresent, fun e' he => Option.some.inj he ▸ hreads⟩
  · exact ⟨none, load_absent h hw hlast hpresent, by simpa using hpresent, fun e he => by cases he⟩

theorem load_zero (m : SparseLayer) (hw : w.bytes = 0) (a : Nat) : (m.load a w).outcome = .ok none := by
  rw [load, if_pos (Width.isZero_of_bytes hw)]
  rfl

theorem load_past_end (hlast : Address.last < a + w.bytes) (e : Expr) : (m.load a w).outcome ≠ .ok (some e) := by
  unfold load
  split
  · exact nofun
  · rw [Address.rangeEnd_error hlast]
    exact nofun

theorem missing_spec (h : m.Valid) (hlast : a + w.bytes ≤ Address.last) :
    ∃ s, m.missing a w = .ok s ∧ ∀ p, p ∈ s ↔ p ∈ Address.range a w ∧ m.held p = none := by
  refine ⟨_, by rw [missing, Address.rangeEnd_ok hlast, Address.requested_ok hlast]; rfl, fun p => ?_⟩
  rw [IntervalSet.mem_difference, IntervalSet.mem_ofInterval, Entry.mem_ofList_intervals]
  apply and_congr_right
  intro hp
  have hlo : a ≤ p := hp.1
  have hhi : p < a + w.bytes := hp.2
  rw [held, Entry.held_eq_none]
  constructor
  · intro hnone e he hc
    have hstart := hc.1
    have hstop := hc.2
    exact hnone ⟨e, (mem_overlapping h).2 ⟨he, by omega, by omega⟩, hc⟩
  · rintro hnone ⟨e, he, hc⟩
    exact hnone e ((mem_overlapping h).1 he).1 hc

theorem answers (h : m.Valid) : Answers m m.held where
  load := loadsFrom h
  load_zero := fun a w hw _ => load_zero m hw a
  missing := fun a w hlast => missing_spec h hlast
  mem_blocks := fun p => Entry.mem_ofList_intervals.trans Entry.isSome_held.symm
  bounded := by
    intro p hp
    obtain ⟨e, he, hc⟩ := Entry.isSome_held.1 hp
    exact Nat.lt_of_lt_of_le hc.2 (h.bounded e he)

end SparseLayer

end LayeredMemory
