import LayeredMemory.Proofs.Memory.History

namespace LayeredMemory

namespace Entry

variable {e : Entry} {l earlier later : List Entry} {start stop : Nat}

def downFrom (stop : Nat) (l : List Entry) : List Entry :=
  (l.filter (fun e => decide (e.start < stop))).reverse

theorem descend_eq_downFrom (h : Ordered l) (stop : Nat) : (SparseLayer.descend stop [] l).1 = downFrom stop l := by
  have hbelow : l.Pairwise (fun e f => decide (f.start < stop) = true → decide (e.start < stop) = true) := by
    refine h.ascending_starts.imp fun hef => ?_
    simp only [decide_eq_true_eq]
    omega
  rw [SparseLayer.descend_eq, downFrom, filter_eq_takeWhile hbelow, List.append_nil]

theorem stop_le_of_downFrom (h : Ordered l) (hdown : downFrom stop l = later ++ e :: earlier) :
    e ∈ l ∧ ∀ f ∈ earlier, f.stop ≤ e.start := by
  have hbelow : Ordered (l.filter (fun e => decide (e.start < stop))) := h.sublist List.filter_sublist
  have hdescending : (downFrom stop l).Pairwise (fun e f => f.stop ≤ e.start) :=
    List.pairwise_reverse.2 hbelow.ascending
  have he : e ∈ downFrom stop l := by simp [hdown]
  rw [hdown] at hdescending
  refine ⟨(List.mem_filter.1 (List.mem_reverse.1 he)).1, ?_⟩
  exact (List.pairwise_cons.1 (List.pairwise_append.1 hdescending).2.1).1

end Entry

def SparseLayer.holed : SparseLayer where
  entries := [⟨0, ⟨.symbol "x" .w64, .zero, .w16, by decide⟩⟩, ⟨2, .full (.const (.ofNat .w16 7)) .w16⟩,
    ⟨4, ⟨.symbol "x" .w64, .w32, .w64, by decide⟩⟩, ⟨12, .full (.const (.ofNat .w8 9)) .w8⟩]

theorem Memory.history_holed : ∃ layers stored, History (.sparse SparseLayer.holed) layers stored := by
  have hsymbol := (History.sparse {}).storeHere ⟨0, .symbol "x" .w64, .w64⟩ rfl
  have hinside := hsymbol.storeHere ⟨2, .const (.ofNat .w16 7), .w16⟩ rfl
  have hbehind := hinside.storeHere ⟨12, .const (.ofNat .w8 9), .w8⟩ rfl
  exact ⟨_, _, hbehind⟩

namespace SparseLayer

variable {m : SparseLayer} {layers : Layers} {stored : List Expr} {a start stop : Nat} {w : Width}

/-- Going down from the end of the range, the first entry that ends at its start or before it ends the scan; those
further down end there, too. -/
theorem scan_misses_no_entry (h : Memory.History (.sparse m) layers stored) (start stop : Nat) :
    m.overlapping start stop =
        ((Entry.downFrom stop m.entries).takeWhile (fun e => decide (start < e.stop))).reverse ∧
      (∀ e, e ∈ m.overlapping start stop ↔ e ∈ m.entries ∧ e.start < stop ∧ start < e.stop) ∧
      (m.overlapping start stop).Nodup ∧ (m.overlapping start stop).Pairwise (fun e f => e.start < f.start) ∧
      ∀ later e earlier, Entry.downFrom stop m.entries = later ++ e :: earlier → e.stop ≤ start →
        ∀ f ∈ earlier, f.stop ≤ start := by
  have hvalid : m.Valid := h.tracks.valid
  have hstarts := (ordered_overlapping hvalid start stop).ascending_starts
  refine ⟨?_, fun e => ?_, ?_, hstarts, fun later e earlier hdown hstop f hf => ?_⟩
  · rw [← Entry.descend_eq_downFrom hvalid]
    rfl
  · rw [mem_overlapping hvalid, Entry.Overlaps, and_comm (a := start < e.stop)]
  · apply hstarts.imp
    rintro e f hef rfl
    exact Nat.lt_irrefl _ hef
  · obtain ⟨he, hearlier⟩ := Entry.stop_le_of_downFrom hvalid hdown
    have hne := hvalid.nonempty e he
    have := hearlier f hf
    omega

theorem scan_finds_two_of_holed :
    (∃ layers stored, Memory.History (.sparse holed) layers stored) ∧
      (holed.overlapping 3 5).map Entry.interval = [⟨2, 4, by decide⟩, ⟨4, 8, by decide⟩] ∧
      ∀ e, e ∈ holed.overlapping 3 5 ↔ e ∈ holed.entries ∧ e.start < 5 ∧ 3 < e.stop := by
  obtain ⟨layers, stored, h⟩ := Memory.history_holed
  obtain ⟨-, hmem, -⟩ := scan_misses_no_entry h 3 5
  exact ⟨⟨layers, stored, h⟩, rfl, hmem⟩

theorem load_of_gap (hw : 0 < w.bytes) (hlast : a + w.bytes ≤ Address.last)
    (hgap : coveredTo a (m.overlapping a (a + w.bytes)) < a + w.bytes) :
    m.load a w = ⟨[.sparseGap a (a + w.bytes) (coveredTo a (m.overlapping a (a + w.bytes)))], .ok none⟩ := by
  rw [load, if_neg (Width.not_isZero hw), Address.rangeEnd_ok hlast]
  change (if coveredTo a (m.overlapping a (a + w.bytes)) < a + w.bytes then _ else _) = _
  rw [if_pos hgap]
  rfl

theorem load_of_covered (hvalid : m.Valid) (hw : 0 < w.bytes) (hlast : a + w.bytes ≤ Address.last)
    (hcovered : a + w.bytes ≤ coveredTo a (m.overlapping a (a + w.bytes))) :
    ∃ e, m.load a w = ⟨[.sparseLoad a (a + w.bytes) (m.overlapping a (a + w.bytes)).length], .ok (some e)⟩ := by
  obtain ⟨e, hassemble, -⟩ :=
    assemble_present hvalid hw ((covered_iff hvalid a w).1 (Nat.not_lt.2 hcovered))
  refine ⟨e, ?_⟩
  rw [load, if_neg (Width.not_isZero hw), Address.rangeEnd_ok hlast]
  change (if coveredTo a (m.overlapping a (a + w.bytes)) < a + w.bytes then _ else _) = _
  rw [if_neg (Nat.not_lt.2 hcovered), hassemble]
  rfl

/-- The record of a failed load names the first address that is missing. -/
theorem gap_is_first_missing (h : Memory.History (.sparse m) layers stored) (hw : 0 < w.bytes)
    (hlast : a + w.bytes ≤ Address.last) :
    ∃ missing, m.missing a w = .ok missing ∧
      (∀ gap rest, missing.intervals = gap :: rest →
        coveredTo a (m.overlapping a (a + w.bytes)) = gap.lo ∧
          m.load a w = ⟨[.sparseGap a (a + w.bytes) gap.lo], .ok none⟩) ∧
      (missing.intervals = [] →
        a + w.bytes ≤ coveredTo a (m.overlapping a (a + w.bytes)) ∧
          ∃ e, m.load a w =
            ⟨[.sparseLoad a (a + w.bytes) (m.overlapping a (a + w.bytes)).length], .ok (some e)⟩) := by
  have hvalid : m.Valid := h.tracks.valid
  obtain ⟨missing, hmissing, hspec⟩ := missing_spec hvalid hlast
  have hreach := le_covered hvalid a (a + w.bytes)
  have hstuck : coveredTo a (m.overlapping a (a + w.bytes)) < a + w.bytes →
      coveredTo a (m.overlapping a (a + w.bytes)) ∈ missing :=
    fun hgap => (hspec _).2 ⟨⟨hreach, hgap⟩, held_covered hvalid hgap⟩
  refine ⟨missing, hmissing, fun gap rest hhead => ?_, fun hnil => ?_⟩
  · have hcanonical : Canonical (gap :: rest) := hhead ▸ missing.canonical
    have hfirst : gap.lo ∈ missing := by
      rw [IntervalSet.mem_iff, hhead]
      exact Covers.lo hcanonical
    obtain ⟨⟨hlo, hhi⟩, hnone⟩ := (hspec gap.lo).1 hfirst
    have hle : coveredTo a (m.overlapping a (a + w.bytes)) ≤ gap.lo := by
      apply Nat.not_lt.1
      intro hlt
      have hsome := isSome_held_of_lt_covered hvalid hlo hlt
      rw [hnone] at hsome
      cases hsome
    have hgap : coveredTo a (m.overlapping a (a + w.bytes)) < a + w.bytes := Nat.lt_of_le_of_lt hle hhi
    have hge : gap.lo ≤ coveredTo a (m.overlapping a (a + w.bytes)) := by
      have hmem := hstuck hgap
      rw [IntervalSet.mem_iff, hhead] at hmem
      exact Covers.lo_le hcanonical hmem
    have heq := Nat.le_antisymm hle hge
    exact ⟨heq, heq ▸ load_of_gap hw hlast hgap⟩
  · have hcovered : a + w.bytes ≤ coveredTo a (m.overlapping a (a + w.bytes)) := by
      apply Nat.not_lt.1
      intro hgap
      have hmem := hstuck hgap
      rw [IntervalSet.mem_iff, hnil] at hmem
      exact Covers.nil hmem
    exact ⟨hcovered, load_of_covered hvalid hw hlast hcovered⟩

theorem gap_of_holed :
    (∃ layers stored, Memory.History (.sparse holed) layers stored) ∧
      (∃ missing, holed.missing 1 ⟨12, by decide⟩ = .ok missing ∧ missing.intervals = [⟨8, 12, by decide⟩] ∧
        holed.load 1 ⟨12, by decide⟩ = ⟨[.sparseGap 1 13 8], .ok none⟩) ∧
      ∃ e, holed.load 1 ⟨7, by decide⟩ = ⟨[.sparseLoad 1 8 3], .ok (some e)⟩ := by
  obtain ⟨layers, stored, h⟩ := Memory.history_holed
  obtain ⟨missing, hmissing, hgap, -⟩ := gap_is_first_missing (a := 1) (w := ⟨12, by decide⟩) h (by decide) (by decide)
  obtain ⟨nothing, hnothing, -, hfull⟩ := gap_is_first_missing (a := 1) (w := ⟨7, by decide⟩) h (by decide) (by decide)
  have hintervals : missing.intervals = [⟨8, 12, by decide⟩] := by
    obtain rfl := Except.ok.inj (hmissing.symm.trans rfl)
    rfl
  have hempty : nothing.intervals = [] := by
    obtain rfl := Except.ok.inj (hnothing.symm.trans rfl)
    rfl
  exact ⟨⟨layers, stored, h⟩, ⟨missing, hmissing, hintervals, (hgap _ _ hintervals).2⟩, (hfull hempty).2⟩

end SparseLayer

end LayeredMemory
