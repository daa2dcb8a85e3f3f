import LayeredMemory.Proofs.Expr.Mentions
import LayeredMemory.Proofs.Sparse.Answers

namespace LayeredMemory

variable {listed : Expr → List String} {m : SparseLayer} {e : Expr} {a : Nat} {w : Width} {name : String}

theorem Expr.Listing.mem_load (h : Listing listed) (hm : m.Valid) (hw : 0 < w.bytes)
    (hlast : a + w.bytes ≤ Address.last) (hload : (m.load a w).outcome = .ok (some e))
    (hcut : ∀ entry ∈ m.entries, entry.Overlaps a (a + w.bytes) →
      listed (entry.clip a (a + w.bytes)).slice.shifted = listed entry.slice.source) :
    name ∈ listed e ↔ ∃ entry ∈ m.entries, entry.Overlaps a (a + w.bytes) ∧ name ∈ listed entry.slice.source := by
  have hpresent : m.held.Present a w := by
    obtain ⟨r, hr, hsome, -⟩ := SparseLayer.loadsFrom hm a w hw hlast
    obtain rfl := Except.ok.inj (hload.symm.trans hr)
    exact hsome.1 rfl
  rw [SparseLayer.outcome_load_present hm hw hlast hpresent] at hload
  rw [h.mem_compose (SparseLayer.tiles_restrict hm hw hpresent) hload]
  constructor
  · rintro ⟨piece, hpiece, hname⟩
    obtain ⟨part, hpart, rfl⟩ := List.mem_map.1 hpiece
    obtain ⟨entry, hentry, hover, rfl⟩ := Entry.mem_restrict.1 hpart
    change name ∈ listed (Expr.resized _ _) at hname
    rw [h.resized, hcut entry hentry hover] at hname
    exact ⟨entry, hentry, hover, hname⟩
  · rintro ⟨entry, hentry, hover, hname⟩
    refine ⟨_, List.mem_map_of_mem (Entry.mem_restrict.2 ⟨entry, hentry, hover, rfl⟩), ?_⟩
    change name ∈ listed (Expr.resized _ _)
    rw [h.resized, hcut entry hentry hover]
    exact hname

theorem SparseLayer.mem_names_load (hm : m.Valid) (hw : 0 < w.bytes) (hlast : a + w.bytes ≤ Address.last)
    (hload : (m.load a w).outcome = .ok (some e)) :
    name ∈ e.names ↔ ∃ entry ∈ m.entries, entry.Overlaps a (a + w.bytes) ∧ name ∈ entry.slice.source.names :=
  Expr.listing_names.mem_load hm hw hlast hload fun _ _ _ => Slice.names_shifted _

theorem SparseLayer.mem_names_fold_load (hm : m.Valid) (hw : 0 < w.bytes) (hlast : a + w.bytes ≤ Address.last)
    (hload : (m.load a w).outcome = .ok (some e))
    (hwithin : ∀ entry ∈ m.entries, entry.slice.hi.bytes ≤ entry.slice.source.width.bytes) :
    name ∈ e.fold.names ↔
      ∃ entry ∈ m.entries, entry.Overlaps a (a + w.bytes) ∧ name ∈ entry.slice.source.fold.names := by
  refine Expr.listing_names_fold.mem_load hm hw hlast hload fun entry hentry hover => ?_
  apply Slice.names_fold_shifted
  have hlo := Entry.lo_clip entry a (a + w.bytes)
  have hstart := Entry.start_clip (a + w.bytes) hover.1
  have hstop := entry.stop_eq
  have hne := hm.nonempty entry hentry
  have hhi := hwithin entry hentry
  have hbefore := hover.1
  change (entry.clip a (a + w.bytes)).slice.lo.bytes < entry.slice.source.width.bytes
  omega

end LayeredMemory
