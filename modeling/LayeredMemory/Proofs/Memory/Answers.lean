import LayeredMemory.Proofs.Image.Answers
import LayeredMemory.Proofs.Memory.ReadThrough
import LayeredMemory.Proofs.Sparse.Answers

namespace LayeredMemory.Memory

variable {m base top : Memory Empty} {low high : Contents} {a : Nat} {w : Width}

def Valid : Memory Empty → Prop
  | sparse m => m.Valid
  | image m => m.Valid
  | overlay base top => base.Valid ∧ top.Valid

def held : Memory Empty → Contents
  | sparse m => m.held
  | image m => m.held
  | overlay base top => top.held.onto base.held

theorem missing_overlay (hbase : Answers base low) (htop : Answers top high)
    (hlast : a + w.bytes ≤ Address.last) :
    ∃ gaps s, top.missing a w = .ok gaps ∧ (∀ p, p ∈ gaps ↔ p ∈ Address.range a w ∧ high p = none) ∧
      (overlay base top).missing a w = .ok s ∧
      ∀ p, p ∈ s ↔ p ∈ Address.range a w ∧ high.onto low p = none := by
  obtain ⟨s, hs, hmem⟩ := hbase.missing a w hlast
  obtain ⟨gaps, hgaps, hmem'⟩ := htop.missing a w hlast
  change base.missing a w = .ok s at hs
  change top.missing a w = .ok gaps at hgaps
  refine ⟨gaps, s.intersect gaps, hgaps, hmem', ?_, fun p => ?_⟩
  · rw [missing, hs, hgaps]
    rfl
  · rw [IntervalSet.mem_intersect, hmem, hmem', Contents.onto, Option.or_eq_none_iff]
    constructor
    · rintro ⟨⟨hp, hlow⟩, -, hhigh⟩
      exact ⟨hp, hhigh, hlow⟩
    · rintro ⟨hp, hhigh, hlow⟩
      exact ⟨⟨hp, hlow⟩, hp, hhigh⟩

theorem loadsFrom_overlay (hbase : Answers base low) (htop : Answers top high) :
    LoadsFrom (overlay base top).load (high.onto low) := by
  intro a w hw hlast
  obtain ⟨gaps, -, hgaps, hmem, -, -⟩ := missing_overlay hbase htop hlast
  rw [load, hgaps, Traced.outcome_bind_ok (Traced.outcome_liftM _)]
  exact readThrough_ok hbase.load htop.load hw hlast hmem

theorem load_overlay_of_isEmpty {gaps : IntervalSet Nat} (hgaps : top.missing a w = .ok gaps) (hempty : gaps.isEmpty) :
    ((overlay base top).load a w).outcome = (top.load a w).outcome := by
  rw [load, hgaps, Traced.outcome_bind_ok (Traced.outcome_liftM _), readThrough, if_pos hempty]

theorem load_overlay_zero (hbase : Answers base low) (htop : Answers top high) (hw : w.bytes = 0)
    (ha : a ≤ Address.last) : ((overlay base top).load a w).outcome = .ok none := by
  obtain ⟨gaps, -, hgaps, hmem, -, -⟩ := missing_overlay hbase htop (show a + w.bytes ≤ Address.last by omega)
  have hempty : gaps.isEmpty := by
    apply IntervalSet.isEmpty_iff.2
    intro p hp
    have hlo : a ≤ p := ((hmem p).1 hp).1.1
    have hhi : p < a + w.bytes := ((hmem p).1 hp).1.2
    omega
  rw [load_overlay_of_isEmpty hgaps hempty]
  exact htop.load_zero a w hw ha

theorem answers_overlay (hbase : Answers base low) (htop : Answers top high) :
    Answers (overlay base top) (high.onto low) where
  load := loadsFrom_overlay hbase htop
  load_zero := fun a w hw ha => load_overlay_zero hbase htop hw ha
  missing := by
    intro a w hlast
    obtain ⟨-, s, -, -, hs, hmem⟩ := missing_overlay hbase htop hlast
    exact ⟨s, hs, hmem⟩
  mem_blocks := by
    intro p
    change p ∈ base.blocks.union top.blocks ↔ _
    rw [IntervalSet.mem_union, Contents.onto, Option.isSome_or, Bool.or_eq_true, Or.comm]
    exact or_congr (htop.mem_blocks p) (hbase.mem_blocks p)
  bounded := by
    intro p hp
    rw [Contents.onto, Option.isSome_or, Bool.or_eq_true] at hp
    rcases hp with hp | hp
    · exact htop.bounded p hp
    · exact hbase.bounded p hp

theorem answers (h : m.Valid) : Answers m m.held := by
  induction m with
  | sparse m =>
    obtain ⟨hload, hzero, hmissing, hblocks, hbounded⟩ := SparseLayer.answers h
    exact ⟨hload, hzero, hmissing, hblocks, hbounded⟩
  | image m =>
    obtain ⟨hload, hzero, hmissing, hblocks, hbounded⟩ := ImageLayer.answers h
    exact ⟨hload, hzero, hmissing, hblocks, hbounded⟩
  | overlay base top ihb iht => exact answers_overlay (ihb h.1) (iht h.2)
  | device d => cases d

theorem exists_load (h : m.Valid) (hw : 0 < w.bytes) (hlast : a + w.bytes ≤ Address.last)
    (hpresent : m.held.Present a w) : ∃ e, (m.load a w).outcome = .ok (some e) := by
  obtain ⟨r, hload, hsome, -⟩ := (answers h).load a w hw hlast
  obtain ⟨e, rfl⟩ := Option.isSome_iff_exists.1 (hsome.2 hpresent)
  exact ⟨e, hload⟩

theorem outcome_load (h : m.Valid) (hlast : a + w.bytes ≤ Address.last) : ∃ r, (m.load a w).outcome = .ok r := by
  by_cases hw : 0 < w.bytes
  · obtain ⟨r, hload, -, -⟩ := (answers h).load a w hw hlast
    exact ⟨r, hload⟩
  · exact ⟨none, (answers h).load_zero a w (by omega) (by omega)⟩

theorem missing_past_end (hlast : Address.last < a + w.bytes) : m.missing a w = .error (.rangeOverflow a w) := by
  induction m with
  | sparse m => rw [missing, SparseLayer.missing, Address.rangeEnd_error hlast]; rfl
  | image m => rw [missing, ImageLayer.missing, Address.requested, Address.rangeEnd_error hlast]; rfl
  | overlay base top ihb _ => rw [missing, ihb]; rfl
  | device d => cases d

theorem load_past_end (hlast : Address.last < a + w.bytes) (e : Expr) : (m.load a w).outcome ≠ .ok (some e) := by
  cases m with
  | sparse m => exact SparseLayer.load_past_end hlast e
  | image m => exact ImageLayer.load_past_end hlast e
  | overlay base top =>
    rw [load, missing_past_end hlast]
    exact nofun
  | device d => cases d

theorem range_of_load (h : m.Valid) {e : Expr} (hload : (m.load a w).outcome = .ok (some e)) :
    0 < w.bytes ∧ a + w.bytes ≤ Address.last := by
  have hlast : a + w.bytes ≤ Address.last := Nat.le_of_not_lt fun hover => load_past_end hover e hload
  refine ⟨Nat.pos_of_ne_zero fun hw => ?_, hlast⟩
  have hnone : (m.load a w).outcome = .ok none := (answers h).load_zero a w hw (by omega)
  rw [hnone] at hload
  cases hload

end LayeredMemory.Memory
