import LayeredMemory.Proofs.Memory.Chunks
import LayeredMemory.Proofs.Sparse.Frame

namespace LayeredMemory

namespace Flatten

variable {μ : Type} [Device μ] {m : μ} {flat flat' : SparseLayer} {start stop : Nat}
  {chunk : Nat × Width} {l : List (Nat × Width)} {f : Failure}

def count (start stop : Nat) : Nat := (stop - start + (chunkSize - 1)) / chunkSize

def grid (start stop : Nat) : List (Nat × Width) :=
  (List.range (count start stop)).map fun k => firstChunk (start + chunkSize * k) stop

theorem count_of_le (h : stop ≤ start) : count start stop = 0 := by
  unfold count chunkSize
  omega

theorem count_of_lt (h : start < stop) :
    count start stop = count (start + (firstChunk start stop).2.bytes) stop + 1 := by
  change _ = count (start + min (stop - start) chunkSize) stop + 1
  unfold count chunkSize
  omega

/-- Behind a short chunk there is nothing left, so the next chunk starts where the grid has it. -/
theorem start_of_lt_count {k : Nat} (hk : k < count (start + (firstChunk start stop).2.bytes) stop) :
    start + (firstChunk start stop).2.bytes + chunkSize * k = start + chunkSize * (k + 1) := by
  change k < count (start + min (stop - start) chunkSize) stop at hk
  change start + min (stop - start) chunkSize + chunkSize * k = _
  unfold count chunkSize at hk
  unfold chunkSize
  omega

theorem chunks_eq_grid (start stop : Nat) : chunks start stop = grid start stop := by
  fun_induction chunks start stop with
  | case1 start hlt first ih =>
    rw [ih, grid, grid, count_of_lt hlt, List.range_succ_eq_map, List.map_cons, List.map_map]
    congr 1
    apply List.map_congr_left
    intro k hk
    rw [start_of_lt_count (List.mem_range.1 hk)]
    rfl
  | case2 start hge =>
    rw [grid, count_of_le (Nat.le_of_not_lt hge)]
    rfl

def cuts (m : μ) : List (Nat × Width) := (Device.blocks m).intervals.flatMap fun i => grid i.lo i.hi

theorem ranges_eq_cuts (m : μ) : ranges (Device.blocks m) = cuts m := by
  unfold ranges cuts
  simp only [chunks_eq_grid]

def total : List (Interval Nat) → Nat
  | [] => 0
  | i :: rest => count i.lo i.hi + total rest

theorem length_flatMap_grid (l : List (Interval Nat)) : (l.flatMap fun i => grid i.lo i.hi).length = total l := by
  induction l with
  | nil => rfl
  | cons i l ih =>
    rw [List.flatMap_cons, List.length_append, ih, grid, List.length_map, List.length_range]
    rfl

def Gives (m : μ) (chunk : Nat × Width) : Prop := ∃ e, (Device.load m chunk.1 chunk.2).outcome = .ok (some e)

def failure? (m : μ) (chunk : Nat × Width) : Option Failure :=
  match (Device.load m chunk.1 chunk.2).outcome with
  | .ok (some _) => none
  | .ok none => some (.refusal (.incompleteLoad chunk.1 chunk.2))
  | .error fault => some (.fault fault)

theorem failure?_eq_none : failure? m chunk = none ↔ Gives m chunk := by
  unfold failure? Gives
  split
  · rename_i e he
    simp [he]
  · rename_i hnone
    simp [hnone]
  · rename_i fault herror
    simp [herror]

theorem failure?_eq_some : failure? m chunk = some f ↔
    ((Device.load m chunk.1 chunk.2).outcome = .ok none ∧ f = .refusal (.incompleteLoad chunk.1 chunk.2)) ∨
      ∃ fault, (Device.load m chunk.1 chunk.2).outcome = .error fault ∧ f = .fault fault := by
  unfold failure?
  split
  · rename_i e he
    simp [he]
  · rename_i hnone
    simp [hnone, eq_comm]
  · rename_i fault herror
    simp [herror, eq_comm]

theorem copyChunk_fails (h : failure? m chunk = some f) (flat : SparseLayer) :
    (copyChunk m flat chunk).outcome = .error f := by
  rcases failure?_eq_some.1 h with ⟨hload, rfl⟩ | ⟨fault, hload, rfl⟩
  · have hlift : (liftM (Device.load m chunk.1 chunk.2) : Traced Failure (Option Expr)).outcome = .ok none :=
      Traced.outcome_mapError_ok hload _
    rw [copyChunk, Traced.outcome_bind_ok hlift]
    rfl
  · exact Traced.outcome_bind_error (Traced.outcome_mapError_error hload _) _

theorem copyChunk_gives (hflat : flat.Valid) (hlast : chunk.1 + chunk.2.bytes ≤ Address.last)
    (h : failure? m chunk = none) :
    ∃ flat', (copyChunk m flat chunk).outcome = .ok flat' ∧ flat'.Valid ∧
      flat'.diagnostics = flat.diagnostics := by
  obtain ⟨e, hload⟩ := failure?_eq_none.1 h
  refine ⟨_, copyChunk_store hflat hlast hload, (SparseLayer.store_ok hflat (.inr hlast) e.fold).2.1, ?_⟩
  rcases SparseLayer.store_cases hflat chunk.1 e.fold chunk.2 with hsame | ⟨-, -, hstate⟩
  · rw [hsame]
  · rw [hstate]

theorem copyChunks_gives (hflat : flat.Valid) (hlast : ∀ chunk ∈ l, chunk.1 + chunk.2.bytes ≤ Address.last)
    (h : ∀ chunk ∈ l, failure? m chunk = none) :
    ∃ flat', (l.foldlM (copyChunk m) flat).outcome = .ok flat' ∧ flat'.Valid ∧
      flat'.diagnostics = flat.diagnostics := by
  induction l generalizing flat with
  | nil => exact ⟨flat, rfl, hflat, rfl⟩
  | cons chunk l ih =>
    obtain ⟨next, hchunk, hnext, hsame⟩ := copyChunk_gives hflat (hlast chunk (by simp)) (h chunk (by simp))
    obtain ⟨flat', hrest, hvalid, hsame'⟩ :=
      ih hnext (fun c hc => hlast c (.tail _ hc)) fun c hc => h c (.tail _ hc)
    refine ⟨flat', ?_, hvalid, hsame'.trans hsame⟩
    rw [List.foldlM_cons, Traced.outcome_bind_ok hchunk]
    exact hrest

theorem copyChunks_fails {before after : List (Nat × Width)} (hflat : flat.Valid)
    (hlast : ∀ chunk ∈ before, chunk.1 + chunk.2.bytes ≤ Address.last)
    (hbefore : ∀ chunk ∈ before, failure? m chunk = none) (h : failure? m chunk = some f) :
    ((before ++ chunk :: after).foldlM (copyChunk m) flat).outcome = .error f := by
  obtain ⟨next, hcopied, -, -⟩ := copyChunks_gives hflat hlast hbefore
  rw [List.foldlM_append, Traced.outcome_bind_ok hcopied, List.foldlM_cons,
    Traced.outcome_bind_error (copyChunk_fails h next)]

theorem flatten_gives (hspace : InSpace m) (h : ∀ chunk ∈ ranges (Device.blocks m), failure? m chunk = none) :
    ∃ flat, (flatten m).outcome = .ok flat ∧ flat.diagnostics = {} := by
  obtain ⟨flat, hflat, -, hdiagnostics⟩ :=
    copyChunks_gives (SparseLayer.valid_fresh {}) (fun _ => hspace.le_last) h
  exact ⟨flat, (outcome_flatten m).trans hflat, hdiagnostics⟩

theorem flatten_fails (hspace : InSpace m)
    (h : ∃ chunk ∈ ranges (Device.blocks m), failure? m chunk ≠ none) :
    ∃ chunk ∈ ranges (Device.blocks m), ∃ f, failure? m chunk = some f ∧
      (∀ c ∈ ranges (Device.blocks m), c.1 < chunk.1 → failure? m c = none) ∧
      (flatten m).outcome = .error f := by
  have hsome : ∃ f, (ranges (Device.blocks m)).findSome? (failure? m) = some f := by
    apply Option.isSome_iff_exists.1
    rw [List.findSome?_isSome_iff]
    obtain ⟨chunk, hchunk, hne⟩ := h
    exact ⟨chunk, hchunk, Option.isSome_iff_ne_none.2 hne⟩
  obtain ⟨f, hf⟩ := hsome
  obtain ⟨before, chunk, after, hsplit, hchunk, hbefore⟩ := List.findSome?_eq_some_iff.1 hf
  have hasc := ascending_ranges (Device.blocks m)
  have hlast : ∀ c ∈ ranges (Device.blocks m), c.1 + c.2.bytes ≤ Address.last := fun _ => hspace.le_last
  rw [outcome_flatten]
  rw [hsplit] at hasc hlast ⊢
  refine ⟨chunk, by simp, f, hchunk, ?_, ?_⟩
  · intro c hc hlt
    -- the chunks ascend, so a lower one stands before
    have hbehind := (List.pairwise_cons.1 (List.pairwise_append.1 hasc).2.1).1
    rcases List.mem_append.1 hc with hc | hc
    · exact hbefore c hc
    · rcases List.mem_cons.1 hc with rfl | hc
      · exact absurd hlt (Nat.lt_irrefl _)
      · have := hbehind c hc
        omega
  · exact copyChunks_fails (SparseLayer.valid_fresh {}) (fun c hc => hlast c (by simp [hc])) hbefore hchunk

theorem blocks_of_flatten (h : (flatten m).outcome = .ok flat) : flat.blocks = Device.blocks m := by
  apply IntervalSet.ext_of_mem
  intro p
  rw [SparseLayer.blocks, Entry.mem_ofList_intervals, ← mem_ranges]
  constructor
  · rintro ⟨entry, hentry, hp⟩
    obtain ⟨chunk, hchunk, hcopied⟩ := (mem_entries_of_flatten h).1 hentry
    obtain ⟨e, -, rfl⟩ := copied?_eq_some.1 hcopied
    exact ⟨chunk, hchunk, hp⟩
  · rintro ⟨chunk, hchunk, hp⟩
    obtain ⟨entry, hentry, hcopied⟩ := exists_entry_of_flatten h hchunk
    obtain ⟨e, -, rfl⟩ := copied?_eq_some.1 hcopied
    exact ⟨_, hentry, hp⟩

theorem load_of_flatten (h : (flatten m).outcome = .ok flat) (hchunk : chunk ∈ ranges (Device.blocks m)) :
    ∃ e, (Device.load m chunk.1 chunk.2).outcome = .ok (some e) ∧
      (flat.load chunk.1 chunk.2).outcome = .ok (some (e.fold.resized chunk.2)) := by
  obtain ⟨entry, hentry, hcopied⟩ := exists_entry_of_flatten h hchunk
  obtain ⟨e, hload, rfl⟩ := copied?_eq_some.1 hcopied
  exact ⟨e, hload, SparseLayer.load_whole (entries_of_flatten h).1 hentry⟩

theorem ranges_of_flatten (h : (flatten m).outcome = .ok flat) :
    flat.entries.map (fun entry => (entry.start, entry.slice.width)) = ranges (Device.blocks m) := by
  have hentries := (entries_of_flatten h).2
  have hrange : ∀ chunk ∈ ranges (Device.blocks m),
      (copied? m chunk).map (fun entry => (entry.start, entry.slice.width)) = some chunk := by
    intro chunk hchunk
    obtain ⟨entry, -, hcopied⟩ := exists_entry_of_flatten h hchunk
    obtain ⟨e, -, rfl⟩ := copied?_eq_some.1 hcopied
    rw [hcopied]
    rfl
  apply (List.map_inj_right fun _ _ => Option.some.inj).1
  calc (flat.entries.map (fun entry => (entry.start, entry.slice.width))).map some
    _ = (flat.entries.map some).map (Option.map fun entry => (entry.start, entry.slice.width)) := by
      rw [List.map_map, List.map_map]
      rfl
    _ = (ranges (Device.blocks m)).map some := by
      rw [hentries, List.map_map]
      exact List.map_congr_left hrange

end Flatten

end LayeredMemory
