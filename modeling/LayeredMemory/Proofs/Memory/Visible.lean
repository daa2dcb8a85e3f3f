import LayeredMemory.Proofs.Memory.History
import LayeredMemory.Proofs.Memory.Mentions

namespace LayeredMemory.Memory

variable {m : Memory Empty} {layers : Layers} {stored : List Expr} {s : Write} {path : List Side}
  {step : Step (Memory Empty) Fault Unit} {a p : Nat} {w : Width} {e : Expr} {name : String}

def visibleSymbols : Memory Empty → Layers → Nat → List String
  | sparse _, .leaf last, p => ((last p).map (·.value.symbols)).getD []
  | image _, _, _ => []
  | overlay base top, .overlay below above, p =>
    if above.Holds p then top.visibleSymbols above p else base.visibleSymbols below p
  | _, _, _ => []

/-- Sparse layers hold the bytes of the last writes as they were given. -/
inductive Keeps : Memory Empty → Layers → Prop
  | sparse {m : SparseLayer} {last : Nat → Option Write} (h : ∀ p, m.held p = (last p).map (·.byteAt p)) :
    Keeps (.sparse m) (.leaf last)
  | image (m : ImageLayer) (last : Nat → Option Write) : Keeps (.image m) (.leaf last)
  | overlay {base top : Memory Empty} {below above : Layers} (hbase : Keeps base below) (htop : Keeps top above) :
    Keeps (.overlay base top) (.overlay below above)

namespace Keeps

theorem store (h : Keeps m layers) (hm : m.Valid) (hok : (m.store s.start s.value s.width).report.outcome = .ok ()) :
    Keeps (m.store s.start s.value s.width).state (layers.store s) := by
  induction h with
  | @sparse m last h =>
    obtain ⟨-, -, hheld⟩ := SparseLayer.store_ok hm (SparseLayer.fits_of_store_ok hok) s.value
    refine .sparse fun p => ?_
    rw [hheld]
    by_cases hp : s.Covers p
    · rw [Write.write_of_covers hp, Write.record_of_covers hp]
      rfl
    · rw [Write.write_of_not_covers hp, Write.record_of_not_covers hp, h p]
  | image m last => exact .image _ _
  | overlay hbase _ _ iht => exact .overlay hbase (iht hm.2 hok)

theorem storeAt (h : Keeps m layers) (hm : m.Valid) (hstep : m.storeAt path s.start s.value s.width = some step)
    (hok : step.report.outcome = .ok ()) : Keeps step.state (layers.storeAt s path) := by
  induction path generalizing m layers step with
  | nil =>
    obtain rfl := Option.some.inj hstep
    exact h.store hm hok
  | cons side path ih =>
    cases h with
    | sparse _ => cases side <;> cases hstep
    | image _ _ => cases side <;> cases hstep
    | overlay hbase htop =>
      cases side with
      | base =>
        obtain ⟨inner, hinner, rfl⟩ := Option.map_eq_some_iff.1 hstep
        exact .overlay (ih hbase hm.1 hinner hok) htop
      | top =>
        obtain ⟨inner, hinner, rfl⟩ := Option.map_eq_some_iff.1 hstep
        exact .overlay hbase (ih htop hm.2 hinner hok)

end Keeps

theorem History.keeps (h : History m layers stored) : Keeps m layers := by
  induction h with
  | sparse d => exact .sparse fun _ => rfl
  | image _ => exact .image _ _
  | overlay _ _ ihb iht => exact .overlay ihb iht
  | base _ ih =>
    cases ih with
    | overlay hbase _ => exact hbase
  | top _ ih =>
    cases ih with
    | overlay _ htop => exact htop
  | clear _ _ => exact .sparse fun _ => rfl
  | store h hstep hok ih => exact ih.storeAt h.tracks.valid hstep hok
  | failed h hstep herr ih =>
    rw [state_of_storeAt_error h.tracks.valid hstep herr]
    exact ih

theorem mem_names_held (h : Tracks stored m layers) (hkeeps : Keeps m layers) :
    name ∈ m.held.names p ↔ name ∈ m.visibleSymbols layers p := by
  induction hkeeps with
  | @sparse m last hlast =>
    rw [Contents.mem_names]
    change (∃ b, m.held p = some b ∧ _) ↔ _
    rw [hlast p, visibleSymbols]
    cases last p with
    | none => simp
    | some s => simp [Write.byteAt, Expr.mem_symbols]
  | image m last =>
    change name ∈ m.held.names p ↔ _
    rw [ImageLayer.names_held, visibleSymbols]
  | @overlay base top below above _ _ ihb iht =>
    cases h with
    | overlay hbase htop =>
      have hpresent := htop.follows.present p
      change name ∈ (top.held.onto base.held).names p ↔ _
      rw [visibleSymbols]
      by_cases hp : above.Holds p
      · rw [if_pos hp, Contents.names_onto_of_isSome (hpresent.2 hp)]
        exact iht htop
      · have hnone : top.held p = none := Option.not_isSome_iff_eq_none.1 fun hsome => hp (hpresent.1 hsome)
        rw [if_neg hp, Contents.names_onto_of_none hnone]
        exact ihb hbase

theorem load_depends_on_visible (h : History m layers stored) (hload : (m.load a w).outcome = .ok (some e)) :
    (∀ name, name ∈ e.symbols ↔ ∃ p, a ≤ p ∧ p < a + w.bytes ∧ name ∈ m.visibleSymbols layers p) ∧
      ((∀ p, a ≤ p → p < a + w.bytes → m.visibleSymbols layers p = []) → ∃ c, e.fold = .const c) := by
  have hsymbols : ∀ name, name ∈ e.symbols ↔
      ∃ p, a ≤ p ∧ p < a + w.bytes ∧ name ∈ m.visibleSymbols layers p := by
    intro name
    rw [Expr.mem_symbols, mentionsFrom h.tracks.valid a w e hload]
    simp only [mem_names_held h.tracks h.keeps]
  refine ⟨hsymbols, fun hnone => Expr.fold_eq_const_iff.2 fun name hname => ?_⟩
  obtain ⟨p, hlo, hhi, hp⟩ := (hsymbols name).1 (Expr.mem_symbols.2 (Expr.names_fold_subset e hname))
  rw [hnone p hlo hhi] at hp
  cases hp

theorem load_depends_on_visible_symbolOnImage :
    ∃ e f, (symbolOnImage.load 0 .w32).outcome = .ok (some e) ∧ (∀ name, name ∈ e.symbols ↔ name = "x") ∧
      (symbolOnImage.load 3 .w8).outcome = .ok (some f) ∧ ∃ c, f.fold = .const c := by
  have hvalid := history_symbolOnImage.tracks.valid
  have hpresent : ∀ p < 4, (symbolOnImage.held p).isSome := by decide
  obtain ⟨e, he⟩ := exists_load (a := 0) (w := .w32) hvalid (by decide) (by decide) fun p _ => hpresent p
  obtain ⟨f, hf⟩ := exists_load (a := 3) (w := .w8) hvalid (by decide) (by decide) fun p _ => hpresent p
  obtain ⟨hsymbols, -⟩ := load_depends_on_visible history_symbolOnImage he
  obtain ⟨-, hconst⟩ := load_depends_on_visible history_symbolOnImage hf
  have hsymbol {name : String} : name ∈ (Expr.symbol "x" .w16).symbols ↔ name = "x" :=
    Expr.mem_symbols.trans List.mem_singleton
  refine ⟨e, f, he, fun name => (hsymbols name).trans ?_, hf, hconst fun p hlo hhi => ?_⟩
  · constructor
    · rintro ⟨p, -, hhi, hname⟩
      have hp : p = 0 ∨ p = 1 ∨ p = 2 ∨ p = 3 := by
        change p < 0 + 4 at hhi
        omega
      obtain rfl | rfl | rfl | rfl := hp
      · cases hname
      · exact hsymbol.1 hname
      · exact hsymbol.1 hname
      · cases hname
    · rintro rfl
      exact ⟨1, by decide, by decide, hsymbol.2 rfl⟩
  · change p < 3 + 1 at hhi
    obtain rfl : p = 3 := by omega
    rfl

end LayeredMemory.Memory
