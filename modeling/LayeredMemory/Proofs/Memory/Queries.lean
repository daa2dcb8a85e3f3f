import LayeredMemory.Proofs.Memory.History

namespace LayeredMemory.Memory

variable {m base top : Memory Empty} {layers below above : Layers} {stored : List Expr} {a : Nat} {w : Width}

theorem mem_blocks (h : History m layers stored) (p : Nat) : p ∈ m.blocks ↔ layers.Holds p := by
  have htracks := h.tracks
  have hanswers := answers htracks.valid
  exact (hanswers.mem_blocks p).trans (htracks.follows.present p)

theorem load_overlay (h : History (.overlay base top) (.overlay below above) stored) (hw : 0 < w.bytes)
    (hlast : a + w.bytes ≤ Address.last) :
    ∃ r, ((overlay base top).load a w).outcome = .ok r ∧
      (r.isSome ↔ ∀ p, a ≤ p → p < a + w.bytes → above.Holds p ∨ below.Holds p) ∧
      ∀ e, r = some e → ∀ bind, (∀ v ∈ stored, v.BoundBy bind) →
        ∃ c, e.evaluate bind = some c ∧ c.width = w ∧ ∀ p, a ≤ p → p < a + w.bytes →
          ∃ u, (if above.Holds p then above.byte? bind p else below.byte? bind p) = some u ∧
            c.bytes.data[p - a]? = some u := by
  have htracks := h.tracks
  obtain ⟨r, hload, hsome, hvalue⟩ := htracks.follows.load (answers htracks.valid) hw hlast
  refine ⟨r, hload, ?_, fun e he bind hbind => ?_⟩
  · rw [hsome]
    apply forall_congr'
    intro p
    rw [← Layers.holds_overlay]
    exact Iff.rfl
  · obtain ⟨-, hbytes⟩ := hvalue e he
    obtain ⟨c, hc, hcw, hread⟩ := hbytes bind hbind
    refine ⟨c, hc, hcw, fun p hlo hhi => ?_⟩
    obtain ⟨s, u, hs, hbyte, hu⟩ := hread p hlo hhi
    refine ⟨u, ?_, hu⟩
    rw [← Layers.byte?_overlay, Layers.byte?, hs]
    exact hbyte

theorem load_overlay_symbolOnImage :
    0 < Width.w32.bytes ∧ 0 + Width.w32.bytes ≤ Address.last ∧
      ∃ e, (symbolOnImage.load 0 .w32).outcome = .ok (some e) ∧
        ∀ bind, (Expr.symbol "x" .w16).BoundBy bind → ∃ c, e.evaluate bind = some c ∧
          c.bytes.data[0]? = some 1 ∧ c.bytes.data[1]? = (Write.mk 1 (.symbol "x" .w16) .w16).byte? bind 1 ∧
            c.bytes.data[3]? = some 4 := by
  have hw : 0 < Width.w32.bytes := by decide
  have hlast : 0 + Width.w32.bytes ≤ Address.last := by decide
  obtain ⟨r, hload, hsome, hvalue⟩ := load_overlay history_symbolOnImage hw hlast
  have hpresent : r.isSome := by
    apply hsome.2
    intro p _ hhi
    right
    have hp : p = 0 ∨ p = 1 ∨ p = 2 ∨ p = 3 := by
      change p < 0 + 4 at hhi
      omega
    obtain rfl | rfl | rfl | rfl := hp <;> rfl
  obtain ⟨e, rfl⟩ := Option.isSome_iff_exists.1 hpresent
  refine ⟨hw, hlast, e, hload, fun bind hbind => ?_⟩
  obtain ⟨c, hc, -, hread⟩ := hvalue e rfl bind (by simpa using hbind)
  obtain ⟨u, hu, hfirst⟩ := hread 0 (by decide) (by decide)
  obtain ⟨t, ht, hsecond⟩ := hread 1 (by decide) (by decide)
  obtain ⟨v, hv, hfourth⟩ := hread 3 (by decide) (by decide)
  have hgiven : ∀ p u, ImageLayer.given [⟨0, ⟨#[1, 2, 3, 4]⟩⟩] p = some (ImageLayer.givenByte p u) →
      (Layers.leaf (ImageLayer.given [⟨0, ⟨#[1, 2, 3, 4]⟩⟩])).byte? bind p = some u := by
    intro p u hp
    rw [Layers.byte?, Layers.lastWrite, hp]
    exact ImageLayer.byte?_givenByte p u bind
  rw [if_neg (by decide), hgiven 0 1 rfl] at hu
  rw [if_pos (by decide)] at ht
  rw [if_neg (by decide), hgiven 3 4 rfl] at hv
  obtain rfl := Option.some.inj hu
  obtain rfl := Option.some.inj hv
  exact ⟨c, hc, hfirst, hsecond.trans ht.symm, hfourth⟩

theorem queries_coherent (h : History m layers stored) (hlast : a + w.bytes ≤ Address.last) :
    ∃ s r, m.missing a w = .ok s ∧ s = (IntervalSet.ofInterval (Address.range a w)).difference m.blocks ∧
      (m.load a w).outcome = .ok r ∧ (r.isSome ↔ 0 < w.bytes ∧ s.isEmpty) ∧ ∀ e, r = some e → e.width = w := by
  have hanswers := answers h.tracks.valid
  have hmissing := hanswers.missing_eq hlast
  by_cases hw : 0 < w.bytes
  · obtain ⟨r, hload, hsome, hreads⟩ := hanswers.load a w hw hlast
    refine ⟨_, r, hmissing, rfl, hload, ?_, fun e he => (hreads e he).1⟩
    rw [hsome, hanswers.present_iff]
    simp only [hw, true_and]
  · refine ⟨_, none, hmissing, rfl, hanswers.load_zero a w (by omega) (by omega), ?_, fun e he => by cases he⟩
    simp [hw]

theorem queries_coherent_symbolOnImage :
    2 + Width.w32.bytes ≤ Address.last ∧
      ∃ s, symbolOnImage.missing 2 .w32 = .ok s ∧ 4 ∈ s ∧ (symbolOnImage.load 2 .w32).outcome = .ok none := by
  have hlast : 2 + Width.w32.bytes ≤ Address.last := by decide
  obtain ⟨s, r, hmissing, rfl, hload, hsome, -⟩ := queries_coherent history_symbolOnImage hlast
  have hgap : 4 ∈ (IntervalSet.ofInterval (Address.range 2 .w32)).difference symbolOnImage.blocks := by
    rw [IntervalSet.mem_difference, IntervalSet.mem_ofInterval, mem_blocks history_symbolOnImage]
    exact ⟨by decide, by decide⟩
  cases r with
  | none => exact ⟨hlast, _, hmissing, hgap, hload⟩
  | some e => exact absurd hgap (IntervalSet.isEmpty_iff.1 (hsome.1 rfl).2 4)

end LayeredMemory.Memory
