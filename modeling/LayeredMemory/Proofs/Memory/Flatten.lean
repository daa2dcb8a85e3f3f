import LayeredMemory.Proofs.Memory.Chunks
import LayeredMemory.Proofs.Memory.Equivalence

namespace LayeredMemory

def Contents.BoundBy (held : Contents) (bind : Binding) : Prop :=
  ∀ p, (held p).isSome → (held.under bind p).isSome

structure Copies (held : Contents) (done : Nat → Prop) (flat : SparseLayer) : Prop where
  valid : flat.Valid
  present : ∀ p, (flat.held p).isSome ↔ done p
  byte : ∀ bind, held.BoundBy bind → ∀ p, done p → flat.held.under bind p = held.under bind p

namespace Copies

variable {held : Contents} {done done' : Nat → Prop} {flat : SparseLayer} {a : Nat} {w : Width} {e : Expr}

theorem fresh : Copies held (fun _ => False) {} where
  valid := SparseLayer.valid_fresh {}
  present := by
    intro p
    rw [SparseLayer.held_fresh]
    exact iff_of_false (by simp [Contents.empty]) id
  byte := by
    intro bind _ p hp
    cases hp

theorem congr (h : Copies held done flat) (heq : ∀ p, done p ↔ done' p) : Copies held done' flat where
  valid := h.valid
  present := by
    intro p
    rw [h.present p]
    exact heq p
  byte := by
    intro bind hbind p hp
    exact h.byte bind hbind p ((heq p).2 hp)

theorem under_write_fold {bind : Binding} (he : e.Reads held a w)
    (hbound : ∀ p, a ≤ p → p < a + w.bytes → (held.under bind p).isSome) {p : Nat} (hlo : a ≤ p)
    (hhi : p < a + w.bytes) : (flat.held.write a e.fold w).under bind p = held.under bind p := by
  obtain ⟨c, hc, hbytes⟩ := he.2 bind hbound
  have hp := hbytes (p - a)
  rw [show a + (p - a) = p by omega, if_pos ⟨hlo, hhi⟩] at hp
  have hwritten : flat.held.write a e.fold w p = some ⟨e.fold, p - a⟩ := if_pos ⟨hlo, hhi⟩
  have hfold := Expr.evaluate_fold hc
  rw [hp, Contents.under, hwritten, Option.bind_some, ValueByte.under, hfold]
  rfl

theorem store (h : Copies held done flat) (hlast : a + w.bytes ≤ Address.last) (hpresent : held.Present a w)
    (he : e.Reads held a w) :
    (flat.store a e.fold w).report.outcome = .ok () ∧
      Copies held (fun p => done p ∨ (a ≤ p ∧ p < a + w.bytes)) (flat.store a e.fold w).state := by
  obtain ⟨hok, hvalid, hheld⟩ := SparseLayer.store_ok h.valid (.inr hlast) e.fold
  refine ⟨hok, hvalid, fun p => ?_, fun bind hbind p hp => ?_⟩
  · rw [hheld, Contents.write]
    by_cases hin : a ≤ p ∧ p < a + w.bytes
    · rw [if_pos hin]
      exact iff_of_true rfl (.inr hin)
    · rw [if_neg hin, h.present p]
      exact (or_iff_left hin).symm
  · rw [hheld]
    by_cases hin : a ≤ p ∧ p < a + w.bytes
    · apply under_write_fold he _ hin.1 hin.2
      intro q hlo hhi
      exact hbind q (hpresent q hlo hhi)
    · have hout : flat.held.write a e.fold w p = flat.held p := if_neg hin
      rw [Contents.under, hout]
      exact h.byte bind hbind p (hp.resolve_right hin)

end Copies

namespace Flatten

variable {μ : Type} [Device μ] {m : μ} {held : Contents} {done : Nat → Prop} {flat : SparseLayer}

theorem copyChunk_ok (h : Answers m held) (hflat : Copies held done flat) {chunk : Nat × Width}
    (hw : 0 < chunk.2.bytes) (hpresent : held.Present chunk.1 chunk.2) :
    ∃ flat', (copyChunk m flat chunk).outcome = .ok flat' ∧
      Copies held (fun p => done p ∨ (chunk.1 ≤ p ∧ p < chunk.1 + chunk.2.bytes)) flat' := by
  have hend := h.bounded (chunk.1 + chunk.2.bytes - 1) (hpresent _ (by omega) (by omega))
  have hlast : chunk.1 + chunk.2.bytes ≤ Address.last := by omega
  obtain ⟨r, hload, hsome, hreads⟩ := h.load chunk.1 chunk.2 hw hlast
  obtain ⟨e, rfl⟩ := Option.isSome_iff_exists.1 (hsome.2 hpresent)
  exact ⟨_, copyChunk_store hflat.valid hlast hload, (hflat.store hlast hpresent (hreads e rfl)).2⟩

theorem copyChunks_ok (h : Answers m held) {l : List (Nat × Width)} (hflat : Copies held done flat)
    (hpos : ∀ chunk ∈ l, 0 < chunk.2.bytes) (hpresent : ∀ chunk ∈ l, held.Present chunk.1 chunk.2) :
    ∃ flat', (l.foldlM (copyChunk m) flat).outcome = .ok flat' ∧
      Copies held (fun p => done p ∨ ∃ chunk ∈ l, p ∈ Address.range chunk.1 chunk.2) flat' := by
  induction l generalizing flat done with
  | nil =>
    refine ⟨flat, rfl, hflat.congr fun p => ?_⟩
    simp
  | cons chunk l ih =>
    obtain ⟨flat₁, hchunk, hflat₁⟩ := copyChunk_ok h hflat (hpos chunk (by simp)) (hpresent chunk (by simp))
    -- from here on the first chunk counts as done
    obtain ⟨flat₂, hrest, hflat₂⟩ := ih hflat₁ (fun c hc => hpos c (.tail _ hc)) fun c hc => hpresent c (.tail _ hc)
    refine ⟨flat₂, ?_, hflat₂.congr fun p => ?_⟩
    · rw [List.foldlM_cons, Traced.outcome_bind_ok hchunk]
      exact hrest
    · simp only [List.mem_cons, exists_eq_or_imp, ← or_assoc]
      exact Iff.rfl

end Flatten

theorem flatten_ok {μ : Type} [Device μ] {m : μ} {held : Contents} (h : Answers m held) :
    ∃ flat, (flatten m).outcome = .ok flat ∧ Copies held (fun p => (held p).isSome) flat := by
  have hcovers : ∀ p, (∃ chunk ∈ Flatten.ranges (Device.blocks m), p ∈ Address.range chunk.1 chunk.2) ↔
      (held p).isSome := fun p => Flatten.mem_ranges.trans (h.mem_blocks p)
  obtain ⟨flat, hcopy, hflat⟩ := Flatten.copyChunks_ok h .fresh (fun _ => Flatten.pos_of_mem_ranges)
    fun chunk hchunk p hlo hhi => (hcovers p).1 ⟨chunk, hchunk, hlo, hhi⟩
  refine ⟨flat, (Flatten.outcome_flatten m).trans hcopy, hflat.congr fun p => ?_⟩
  rw [false_or]
  exact hcovers p

section

variable {μ : Type} [Device μ] {m : μ} {flat flat' : SparseLayer} {layers : Layers} {stored : List Expr}

theorem Memory.History.copyChunks {l : List (Nat × Width)} (h : Memory.History (.sparse flat) layers stored)
    (hcopy : (l.foldlM (Flatten.copyChunk m) flat).outcome = .ok flat') :
    ∃ layers' stored', Memory.History (.sparse flat') layers' stored' := by
  induction l generalizing flat layers stored with
  | nil =>
    obtain rfl := Except.ok.inj hcopy
    exact ⟨layers, stored, h⟩
  | cons chunk l ih =>
    obtain ⟨next, hchunk, hrest⟩ := Traced.outcome_bind_eq_ok.1 hcopy
    obtain ⟨e, -, hok, rfl⟩ := Flatten.copyChunk_cases hchunk
    exact ih (h.storeHere ⟨chunk.1, e.fold, chunk.2⟩ hok) hrest

/-- A flat layer is a state like any other: stores to a fresh layer lead to it. -/
theorem Memory.History.flatten (h : (LayeredMemory.flatten m).outcome = .ok flat) :
    ∃ layers stored, Memory.History (.sparse flat) layers stored := by
  rw [Flatten.outcome_flatten] at h
  exact (Memory.History.sparse {}).copyChunks h

end

theorem Copies.follows {held : Contents} {flat : SparseLayer} {stored : List Expr} {last : Nat → Option Write}
    (h : Copies held (fun p => (held p).isSome) flat) (hf : Follows stored held last) :
    Follows stored flat.held last := by
  constructor
  · intro p
    rw [h.present, hf.present]
  · intro bind hbind p s hs
    have hbound : held.BoundBy bind := by
      intro q hq
      obtain ⟨-, u, -, -, hu⟩ := hf.bytes_of_isSome hbind hq
      rw [hu]
      rfl
    rw [h.byte bind hbound p ((hf.present p).2 (by rw [hs]; rfl))]
    exact hf.byte bind hbind p s hs

theorem flatten_equivalent {m : Memory Empty} {layers : Layers} {stored : List Expr}
    (h : Memory.History m layers stored) :
    ∃ flat, (flatten m).outcome = .ok flat ∧ Equivalent stored m flat ∧
      ∀ writes m' flat', (storeAll m writes).outcome = .ok m' → (storeAll flat writes).outcome = .ok flat' →
        Equivalent (writes.map Write.value ++ stored) m' flat' := by
  have htracks := h.tracks
  have hanswers := Memory.answers htracks.valid
  obtain ⟨flat, hflat, hcopies⟩ := flatten_ok hanswers
  have hfollows := hcopies.follows htracks.follows
  refine ⟨flat, hflat, ?_, ?_⟩
  · exact htracks.follows.equivalent hfollows hanswers (SparseLayer.answers hcopies.valid)
  · intro writes m' flat' hm hf
    have hlater : ∀ v ∈ stored, v ∈ writes.map Write.value ++ stored :=
      fun v hv => List.mem_append_right _ hv
    have hin : ∀ s ∈ writes, s.value ∈ writes.map Write.value ++ stored :=
      fun s hs => List.mem_append_left _ (List.mem_map_of_mem hs)
    obtain ⟨hvalid, hlast⟩ := Memory.storeAll_follows (htracks.mono hlater) hin hm
    obtain ⟨hvalid', hlast'⟩ := SparseLayer.storeAll_follows hcopies.valid (hfollows.mono hlater) hin hf
    exact hlast.equivalent hlast' (Memory.answers hvalid) (SparseLayer.answers hvalid')

theorem flatten_equivalent_symbolOnImage :
    let writes : List Write := [⟨3, .symbol "y" .w8, .w8⟩]
    ∃ flat m' flat', (flatten Memory.symbolOnImage).outcome = .ok flat ∧
      Equivalent [.symbol "x" .w16] Memory.symbolOnImage flat ∧
      (storeAll Memory.symbolOnImage writes).outcome = .ok m' ∧ (storeAll flat writes).outcome = .ok flat' ∧
      Equivalent [.symbol "y" .w8, .symbol "x" .w16] m' flat' := by
  intro writes
  obtain ⟨flat, hflat, hequivalent, hlater⟩ := flatten_equivalent Memory.history_symbolOnImage
  have hvalid : flat.Valid := by
    obtain ⟨flat', hflat', hcopies⟩ := flatten_ok (Memory.answers Memory.history_symbolOnImage.tracks.valid)
    obtain rfl := Except.ok.inj (hflat.symm.trans hflat')
    exact hcopies.valid
  have hfit : 3 + Width.w8.bytes ≤ Address.last := by decide
  obtain ⟨hok, -, -⟩ := SparseLayer.store_ok hvalid (.inr hfit) (.symbol "y" .w8)
  have hstore : (storeAll flat writes).outcome = .ok (flat.store 3 (.symbol "y" .w8) .w8).state :=
    (Traced.outcome_bind_ok (Step.outcome_result_ok hok) _).trans rfl
  exact ⟨flat, _, _, hflat, hequivalent, rfl, hstore, hlater writes _ _ rfl hstore⟩

end LayeredMemory
