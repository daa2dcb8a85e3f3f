import LayeredMemory.Proofs.Expr.NormalForm
import LayeredMemory.Proofs.Memory.AnyDevice
import LayeredMemory.Proofs.Memory.Flatten

/-!
A flat layer is a fixed point of flattening. It has the blocks of the memory that it was made from, so it is cut in
the same places; each cut falls on one entry, and the value there has the width of the cut and is folded already.
-/

namespace LayeredMemory

namespace Flatten

variable {μ : Type} [Device μ] {m : μ} {flat : SparseLayer} {chunk : Nat × Width} {held : Contents}

def KeepsWidth (m : μ) : Prop :=
  ∀ chunk ∈ ranges (Device.blocks m), ∀ e, (Device.load m chunk.1 chunk.2).outcome = .ok (some e) → e.width = chunk.2

theorem ranges_flat (h : (flatten m).outcome = .ok flat) :
    ranges (Device.blocks flat) = ranges (Device.blocks m) :=
  congrArg ranges (blocks_of_flatten h)

theorem copied?_flat (hwidth : KeepsWidth m) (h : (flatten m).outcome = .ok flat)
    (hchunk : chunk ∈ ranges (Device.blocks m)) : copied? flat chunk = copied? m chunk := by
  obtain ⟨e, hload, hflat⟩ := load_of_flatten h hchunk
  have hself : e.fold.resized chunk.2 = e.fold :=
    Expr.resized_of_eq ((Expr.width_fold e).trans (hwidth chunk hchunk e hload))
  rw [hself] at hflat
  rw [copied?_eq_some.2 ⟨e.fold, hflat, rfl⟩, copied?_eq_some.2 ⟨e, hload, rfl⟩, Expr.fold_fold]

theorem diagnostics_of_flatten (hspace : InSpace m) (h : (flatten m).outcome = .ok flat) : flat.diagnostics = {} := by
  have hgives : ∀ chunk ∈ ranges (Device.blocks m), failure? m chunk = none := by
    intro chunk hchunk
    obtain ⟨e, hload, -⟩ := load_of_flatten h hchunk
    exact failure?_eq_none.2 ⟨e, hload⟩
  obtain ⟨flat', hflat', hdiagnostics⟩ := flatten_gives hspace hgives
  obtain rfl := Except.ok.inj (h.symm.trans hflat')
  exact hdiagnostics

theorem flatten_flat (hspace : InSpace m) (hwidth : KeepsWidth m) (h : (flatten m).outcome = .ok flat) :
    (flatten flat).outcome = .ok flat := by
  have hspace' : InSpace flat := by
    intro i hi
    have hblocks : Device.blocks flat = Device.blocks m := blocks_of_flatten h
    rw [hblocks] at hi
    exact hspace i hi
  have hgives : ∀ chunk ∈ ranges (Device.blocks flat), failure? flat chunk = none := by
    intro chunk hchunk
    rw [ranges_flat h] at hchunk
    obtain ⟨e, -, hflat⟩ := load_of_flatten h hchunk
    exact failure?_eq_none.2 ⟨_, hflat⟩
  obtain ⟨again, hagain, hdiagnostics⟩ := flatten_gives hspace' hgives
  have hentries : again.entries.map some = flat.entries.map some := by
    rw [(entries_of_flatten hagain).2, (entries_of_flatten h).2, ranges_flat h]
    exact List.map_congr_left fun chunk hchunk => copied?_flat hwidth h hchunk
  have hsame : again = flat := by
    obtain ⟨entries, diagnostics⟩ := again
    obtain ⟨entries', diagnostics'⟩ := flat
    obtain rfl : entries = entries' := (List.map_inj_right fun _ _ => Option.some.inj).1 hentries
    obtain rfl : diagnostics = diagnostics' := hdiagnostics.trans (diagnostics_of_flatten hspace h).symm
    rfl
  rw [hagain, hsame]

theorem keepsWidth_of_answers (h : Answers m held) : KeepsWidth m := by
  intro chunk hchunk e hload
  obtain ⟨r, hr, -, hreads⟩ := h.load chunk.1 chunk.2 (pos_of_mem_ranges hchunk) ((inSpace_of_answers h).le_last hchunk)
  exact (hreads e (Except.ok.inj (hr.symm.trans hload))).1

end Flatten

theorem flatten_twice {m : Memory Empty} {layers : Layers} {stored : List Expr} (h : Memory.History m layers stored) :
    ∃ flat, (flatten m).outcome = .ok flat ∧ (flatten flat).outcome = .ok flat := by
  have hanswers := Memory.answers h.tracks.valid
  obtain ⟨flat, hflat, -⟩ := flatten_ok hanswers
  refine ⟨flat, hflat, ?_⟩
  exact Flatten.flatten_flat (Flatten.inSpace_of_answers hanswers) (Flatten.keepsWidth_of_answers hanswers) hflat

theorem flatten_twice_symbolOnImage :
    ∃ flat, (flatten Memory.symbolOnImage).outcome = .ok flat ∧ (flatten flat).outcome = .ok flat ∧
      flat.blocks = Memory.symbolOnImage.blocks := by
  obtain ⟨flat, hflat, htwice⟩ := flatten_twice Memory.history_symbolOnImage
  exact ⟨flat, hflat, htwice, Flatten.blocks_of_flatten hflat⟩

end LayeredMemory
