import LayeredMemory.Proofs.Expr.NormalForm
import LayeredMemory.Proofs.Memory.Flatten
import LayeredMemory.Proofs.Sparse.Mentions

namespace LayeredMemory

theorem Expr.const_unique {bind : Binding} {e f : Expr} {c d v : Constant} (he : e.evaluate bind = some v)
    (hf : f.evaluate bind = some v) (hc : e.fold = .const c) (hd : f.fold = .const d) : c = d := by
  have hv := evaluate_fold he
  have hu := evaluate_fold hf
  rw [hc] at hv
  rw [hd] at hu
  exact Option.some.inj (hv.trans hu.symm)

namespace Flatten

def Touches (a : Nat) (w : Width) (chunk : Nat × Width) : Prop :=
  a < chunk.1 + chunk.2.bytes ∧ chunk.1 < a + w.bytes

instance (a : Nat) (w : Width) (chunk : Nat × Width) : Decidable (Touches a w chunk) :=
  inferInstanceAs (Decidable (_ ∧ _))

variable {μ : Type} [Device μ] {m : μ} {held : Contents} {flat : SparseLayer} {a : Nat} {w : Width} {f : Expr}

theorem hi_le_width_of_mem (h : Answers m held) (hflat : (flatten m).outcome = .ok flat) {entry : Entry}
    (hentry : entry ∈ flat.entries) : entry.slice.hi.bytes ≤ entry.slice.source.width.bytes := by
  have hlast := (entries_of_flatten hflat).1.bounded entry hentry
  obtain ⟨chunk, hchunk, hcopied⟩ := (mem_entries_of_flatten hflat).1 hentry
  obtain ⟨g, hg, rfl⟩ := copied?_eq_some.1 hcopied
  obtain ⟨r, hr, -, hreads⟩ := h.load chunk.1 chunk.2 (pos_of_mem_ranges hchunk) hlast
  obtain rfl := Except.ok.inj (hg.symm.trans hr)
  have hwidth : g.fold.width = chunk.2 := (Expr.width_fold g).trans (hreads g rfl).1
  exact Nat.le_of_eq (congrArg Width.bytes hwidth.symm)

theorem mem_names_fold_load (h : Answers m held) (hflat : (flatten m).outcome = .ok flat) (hw : 0 < w.bytes)
    (hlast : a + w.bytes ≤ Address.last) (hload : (flat.load a w).outcome = .ok (some f)) (name : String) :
    name ∈ f.fold.names ↔ ∃ chunk ∈ ranges (Device.blocks m), Touches a w chunk ∧
      ∃ g, (Device.load m chunk.1 chunk.2).outcome = .ok (some g) ∧ name ∈ g.fold.names := by
  rw [SparseLayer.mem_names_fold_load (entries_of_flatten hflat).1 hw hlast hload
    fun entry hentry => hi_le_width_of_mem h hflat hentry]
  constructor
  · rintro ⟨entry, hentry, hover, hname⟩
    obtain ⟨chunk, hchunk, hcopied⟩ := (mem_entries_of_flatten hflat).1 hentry
    obtain ⟨g, hg, rfl⟩ := copied?_eq_some.1 hcopied
    change name ∈ g.fold.fold.names at hname
    rw [Expr.fold_fold] at hname
    exact ⟨chunk, hchunk, hover, g, hg, hname⟩
  · rintro ⟨chunk, hchunk, htouch, g, hg, hname⟩
    have hcopied := copied?_eq_some.2 ⟨g, hg, rfl⟩
    refine ⟨_, (mem_entries_of_flatten hflat).2 ⟨chunk, hchunk, hcopied⟩, htouch, ?_⟩
    change name ∈ g.fold.fold.names
    rw [Expr.fold_fold]
    exact hname

theorem fold_load_const_iff (h : Answers m held) (hflat : (flatten m).outcome = .ok flat) (hw : 0 < w.bytes)
    (hlast : a + w.bytes ≤ Address.last) (hload : (flat.load a w).outcome = .ok (some f)) :
    (∃ c, f.fold = .const c) ↔ ∀ chunk ∈ ranges (Device.blocks m), Touches a w chunk →
      ∃ g d, (Device.load m chunk.1 chunk.2).outcome = .ok (some g) ∧ g.fold = .const d := by
  have hnames := mem_names_fold_load h hflat hw hlast hload
  rw [Expr.fold_eq_const_iff]
  constructor
  · intro hnone chunk hchunk htouch
    obtain ⟨entry, -, hcopied⟩ := exists_entry_of_flatten hflat hchunk
    obtain ⟨g, hg, -⟩ := copied?_eq_some.1 hcopied
    obtain ⟨d, hd⟩ := Expr.fold_eq_const_iff.2 fun name hname =>
      hnone name ((hnames name).2 ⟨chunk, hchunk, htouch, g, hg, hname⟩)
    exact ⟨g, d, hg, hd⟩
  · intro hconst name hname
    obtain ⟨chunk, hchunk, htouch, g, hg, hin⟩ := (hnames name).1 hname
    obtain ⟨g', d, hg', hd⟩ := hconst chunk hchunk htouch
    obtain rfl := Option.some.inj (Except.ok.inj (hg.symm.trans hg'))
    rw [hd] at hin
    cases hin

end Flatten

/-- A constant of the tree survives exactly where no chunk that the load touches has symbols. -/
theorem flatten_mentions_chunks {m : Memory Empty} {layers : Layers} {stored : List Expr}
    (h : Memory.History m layers stored) :
    ∃ flat, (flatten m).outcome = .ok flat ∧ ∀ a w e, (m.load a w).outcome = .ok (some e) →
      ∃ f, (flat.load a w).outcome = .ok (some f) ∧
        (∀ name, name ∈ f.fold.symbols ↔ ∃ chunk ∈ Flatten.ranges m.blocks, Flatten.Touches a w chunk ∧
          ∃ g, (m.load chunk.1 chunk.2).outcome = .ok (some g) ∧ name ∈ g.fold.symbols) ∧
        ∀ c, e.fold = .const c →
          (f.fold = .const c ↔ ∀ chunk ∈ Flatten.ranges m.blocks, Flatten.Touches a w chunk →
            ∃ g d, (m.load chunk.1 chunk.2).outcome = .ok (some g) ∧ g.fold = .const d) := by
  have htracks := h.tracks
  have hanswers := Memory.answers htracks.valid
  obtain ⟨flat, hflat, hcopies⟩ := flatten_ok hanswers
  have hsame := htracks.follows.equivalent (hcopies.follows htracks.follows) hanswers
    (SparseLayer.answers hcopies.valid)
  refine ⟨flat, hflat, fun a w e he => ?_⟩
  obtain ⟨hw, hlast⟩ := Memory.range_of_load htracks.valid he
  obtain ⟨r, t, hr, ht, hsome, hvalue⟩ := hsame.load a w hlast
  obtain rfl := Except.ok.inj (he.symm.trans hr)
  obtain ⟨f, rfl⟩ := Option.isSome_iff_exists.1 (hsome.1 rfl)
  have hconst := Flatten.fold_load_const_iff hanswers hflat hw hlast ht
  refine ⟨f, ht, fun name => ?_, fun c hc => ?_⟩
  · simp only [Expr.mem_symbols]
    exact Flatten.mem_names_fold_load hanswers hflat hw hlast ht name
  · refine Iff.trans ⟨fun hf => ⟨c, hf⟩, ?_⟩ hconst
    rintro ⟨d, hd⟩
    -- any binding of all symbols tells which constant it is
    obtain ⟨v, hev, hfv⟩ := hvalue e f rfl rfl (fun _ => some (.zero .w8)) fun _ _ _ _ => rfl
    rw [hd, Expr.const_unique hev hfv hc hd]

namespace Memory

def besideSymbol (p : Nat) : Memory Empty :=
  .sparse ⟨[⟨0, .full (.symbol "x" .w8) .w8⟩, ⟨p, .full (.const (.ofNat .w8 7)) .w8⟩], {}⟩

theorem history_besideSymbol {p : Nat} (hp : 0 < p) (hlast : p + 1 ≤ Address.last) :
    ∃ layers stored, History (besideSymbol p) layers stored := by
  let first : SparseLayer := ⟨[⟨0, .full (.symbol "x" .w8) .w8⟩], {}⟩
  have hfirst : History (.sparse first) _ _ := (History.sparse {}).storeHere ⟨0, .symbol "x" .w8, .w8⟩ rfl
  have hvalid : first.Valid := hfirst.tracks.valid
  have hbelow : ∀ e ∈ first.entries, e.stop ≤ p := by
    intro e he
    rw [List.mem_singleton.1 he]
    exact hp
  obtain ⟨hstate, hok⟩ := SparseLayer.store_eq hvalid (w := .w8) (by decide) hlast (.const (.ofNat .w8 7))
  rw [Entry.overwrite_behind hvalid hbelow (Nat.le_add_right _ _)] at hstate
  have hsecond := hfirst.storeHere ⟨p, .const (.ofNat .w8 7), .w8⟩ hok
  have hsame : ((sparse first : Memory Empty).store p (.const (.ofNat .w8 7)) .w8).state = besideSymbol p :=
    congrArg sparse hstate
  rw [hsame] at hsecond
  exact ⟨_, _, hsecond⟩

end Memory

theorem flatten_mentions_chunks_apart :
    ∃ flat f, (flatten (Memory.besideSymbol 2)).outcome = .ok flat ∧ (flat.load 2 .w8).outcome = .ok (some f) ∧
      f.fold = .const (.ofNat .w8 7) := by
  obtain ⟨layers, stored, h⟩ := Memory.history_besideSymbol (p := 2) (by decide) (by decide)
  have hblocks : (Memory.besideSymbol 2).blocks.intervals = [⟨0, 1, by decide⟩, ⟨2, 3, by decide⟩] := rfl
  have hranges : Flatten.ranges (Memory.besideSymbol 2).blocks = [(0, .w8), (2, .w8)] := by
    rw [Flatten.ranges, hblocks, List.flatMap_cons, List.flatMap_singleton,
      Flatten.chunks_of_short (by decide) (by decide), Flatten.chunks_of_short (by decide) (by decide)]
    rfl
  obtain ⟨flat, hflat, hloads⟩ := flatten_mentions_chunks h
  obtain ⟨f, hf, -, hconst⟩ := hloads 2 .w8 (.const (.ofNat .w8 7)) rfl
  refine ⟨flat, f, hflat, hf, (hconst _ rfl).2 fun chunk hchunk htouch => ?_⟩
  rw [hranges] at hchunk
  rcases List.mem_cons.1 hchunk with rfl | hchunk
  · exact absurd htouch (by decide)
  · obtain rfl := List.mem_singleton.1 hchunk
    exact ⟨_, _, rfl, rfl⟩

/-- Right behind the symbol, the constant is stored in one chunk with it and is lost. -/
theorem flatten_loses_constant :
    ∃ layers stored flat f, Memory.History (Memory.besideSymbol 1) layers stored ∧
      ((Memory.besideSymbol 1).load 1 .w8).outcome = .ok (some (.const (.ofNat .w8 7))) ∧
      (flatten (Memory.besideSymbol 1)).outcome = .ok flat ∧ (flat.load 1 .w8).outcome = .ok (some f) ∧
      f.fold ≠ .const (.ofNat .w8 7) ∧ "x" ∈ f.fold.symbols := by
  obtain ⟨layers, stored, h⟩ := Memory.history_besideSymbol (p := 1) (by decide) (by decide)
  have hblocks : (Device.blocks (Memory.besideSymbol 1)).intervals = [⟨0, 2, by decide⟩] := rfl
  have hranges : Flatten.ranges (Device.blocks (Memory.besideSymbol 1)) = [(0, .w16)] := by
    rw [Flatten.ranges, hblocks, List.flatMap_singleton, Flatten.chunks_of_short (by decide) (by decide)]
    rfl
  let both : Expr := .binary .or (.symbol "x" .w8) (.const (.ofNat .w16 0x700)) .w16
  let cut : Expr := .resize (.binary .shr both (.const (.ofNat .w64 8)) .w16) .w8
  have hflat : (flatten (Memory.besideSymbol 1)).outcome = .ok ⟨[⟨0, .full both .w16⟩], {}⟩ := by
    rw [Flatten.outcome_flatten, hranges]
    rfl
  have hload : ((SparseLayer.mk [⟨0, .full both .w16⟩] {}).load 1 .w8).outcome = .ok (some cut) := rfl
  have hfold : cut.fold = cut := rfl
  refine ⟨layers, stored, _, cut, h, rfl, hflat, hload, ?_, ?_⟩
  · rw [hfold]
    exact nofun
  · rw [hfold, Expr.mem_symbols]
    exact .head _

end LayeredMemory
