import LayeredMemory.Memory.Flatten
import LayeredMemory.Proofs.Sparse.Overwrite

namespace LayeredMemory

namespace Flatten

variable {μ : Type} [Device μ] {m : μ} {flat flat' : SparseLayer} {start stop a : Nat} {w : Width}
  {chunk : Nat × Width}

theorem bounds_of_mem_chunks (h : chunk ∈ chunks start stop) :
    start ≤ chunk.1 ∧ 0 < chunk.2.bytes ∧ chunk.1 + chunk.2.bytes ≤ stop := by
  fun_induction chunks start stop with
  | case1 start hlt first ih =>
    have hpos := firstChunk_pos hlt
    have hfirst : start + first.2.bytes ≤ stop := by
      change start + min (stop - start) chunkSize ≤ stop
      omega
    rcases List.mem_cons.1 h with rfl | h
    · exact ⟨Nat.le_refl start, hpos, hfirst⟩
    · have := ih h
      omega
  | case2 start _ => cases h

theorem chunks_of_short (h : start < stop) (hle : stop ≤ start + chunkSize) :
    chunks start stop = [firstChunk start stop] := by
  have hall : start + (firstChunk start stop).2.bytes = stop := by
    change start + min (stop - start) chunkSize = stop
    omega
  rw [chunks, if_pos h]
  dsimp only
  rw [hall, chunks, if_neg (Nat.lt_irrefl stop)]

theorem ascending_chunks (start stop : Nat) :
    (chunks start stop).Pairwise (fun c d => c.1 + c.2.bytes ≤ d.1) := by
  fun_induction chunks start stop with
  | case1 start hlt first ih => exact .cons (fun d hd => (bounds_of_mem_chunks hd).1) ih
  | case2 start _ => exact .nil

theorem mem_chunks {p : Nat} :
    (∃ chunk ∈ chunks start stop, p ∈ Address.range chunk.1 chunk.2) ↔ start ≤ p ∧ p < stop := by
  fun_induction chunks start stop with
  | case1 start hlt first ih =>
    have hfirst : first.2.bytes ≤ stop - start := Nat.min_le_left ..
    simp only [List.mem_cons, exists_eq_or_imp, ih]
    change (start ≤ p ∧ p < start + first.2.bytes) ∨ _ ↔ _
    omega
  | case2 start hge =>
    simp only [List.not_mem_nil, false_and, exists_false, false_iff]
    omega

def ranges (s : IntervalSet Nat) : List (Nat × Width) := s.intervals.flatMap fun i => chunks i.lo i.hi

theorem mem_ranges {s : IntervalSet Nat} {p : Nat} :
    (∃ chunk ∈ ranges s, p ∈ Address.range chunk.1 chunk.2) ↔ p ∈ s := by
  constructor
  · rintro ⟨chunk, hchunk, hp⟩
    obtain ⟨i, hi, hchunk⟩ := List.mem_flatMap.1 hchunk
    exact ⟨i, hi, mem_chunks.1 ⟨chunk, hchunk, hp⟩⟩
  · rintro ⟨i, hi, hp⟩
    obtain ⟨chunk, hchunk, hp⟩ := mem_chunks.2 hp
    exact ⟨chunk, List.mem_flatMap.2 ⟨i, hi, hchunk⟩, hp⟩

theorem pos_of_mem_ranges {s : IntervalSet Nat} (h : chunk ∈ ranges s) : 0 < chunk.2.bytes := by
  obtain ⟨i, -, hchunk⟩ := List.mem_flatMap.1 h
  exact (bounds_of_mem_chunks hchunk).2.1

theorem ascending_ranges (s : IntervalSet Nat) :
    (ranges s).Pairwise (fun c d => c.1 + c.2.bytes ≤ d.1) := by
  apply List.pairwise_flatMap.2
  refine ⟨fun i _ => ascending_chunks i.lo i.hi, s.canonical.2.imp fun {i j} hij c hc d hd => ?_⟩
  have := bounds_of_mem_chunks hc
  have := bounds_of_mem_chunks hd
  omega

def InSpace (m : μ) : Prop := ∀ i ∈ (Device.blocks m).intervals, i.hi ≤ Address.last

theorem InSpace.le_last (h : InSpace m) (hchunk : chunk ∈ ranges (Device.blocks m)) :
    chunk.1 + chunk.2.bytes ≤ Address.last := by
  obtain ⟨i, hi, hchunk⟩ := List.mem_flatMap.1 hchunk
  exact Nat.le_trans (bounds_of_mem_chunks hchunk).2.2 (h i hi)

theorem inSpace_of_answers {held : Contents} (h : Answers m held) : InSpace m := by
  intro i hi
  refine (IntervalSet.bounds_of_mem (a := 0) (fun p hp => ?_) hi).2.2
  exact ⟨Nat.zero_le p, h.bounded p ((h.mem_blocks p).1 hp)⟩

theorem foldlM_copyRange (m : μ) (l : List (Interval Nat)) (flat : SparseLayer) :
    l.foldlM (fun flat block => copyRange m flat block.lo block.hi) flat =
      (l.flatMap fun i => chunks i.lo i.hi).foldlM (copyChunk m) flat := by
  induction l generalizing flat with
  | nil => rfl
  | cons i l ih =>
    rw [List.foldlM_cons, List.flatMap_cons, List.foldlM_append, copyRange_eq_foldlM]
    exact bind_congr fun flat => ih flat

theorem outcome_flatten (m : μ) :
    (flatten m).outcome = ((ranges (Device.blocks m)).foldlM (copyChunk m) {}).outcome := by
  rw [flatten, foldlM_copyRange, Traced.outcome_bind_ok (Traced.outcome_record _)]
  rfl

def copied? (m : μ) (chunk : Nat × Width) : Option Entry :=
  match (Device.load m chunk.1 chunk.2).outcome with
  | .ok (some e) => some ⟨chunk.1, .full e.fold chunk.2⟩
  | _ => none

theorem copied?_eq_some {entry : Entry} :
    copied? m chunk = some entry ↔ ∃ e, (Device.load m chunk.1 chunk.2).outcome = .ok (some e) ∧
      entry = ⟨chunk.1, .full e.fold chunk.2⟩ := by
  unfold copied?
  split
  · rename_i e he
    simp [he, eq_comm]
  · rename_i hne
    simp only [reduceCtorEq, false_iff, not_exists, not_and]
    intro e he
    exact absurd he (hne e)

theorem copyChunk_cases (h : (copyChunk m flat chunk).outcome = .ok flat') :
    ∃ e, (Device.load m chunk.1 chunk.2).outcome = .ok (some e) ∧
      (flat.store chunk.1 e.fold chunk.2).report.outcome = .ok () ∧
        (flat.store chunk.1 e.fold chunk.2).state = flat' := by
  obtain ⟨r, hload, hstore⟩ := Traced.outcome_bind_eq_ok.1 h
  have hload := Traced.outcome_mapError_eq_ok.1 hload
  cases r with
  | none => cases hstore
  | some e => exact ⟨e, hload, Step.outcome_result_iff.1 (Traced.outcome_mapError_eq_ok.1 hstore)⟩

theorem copyChunk_store {e : Expr} (hflat : flat.Valid) (hlast : a + w.bytes ≤ Address.last)
    (hload : (Device.load m a w).outcome = .ok (some e)) :
    (copyChunk m flat (a, w)).outcome = .ok (flat.store a e.fold w).state := by
  have hlift : (liftM (Device.load m a w) : Traced Failure (Option Expr)).outcome = .ok (some e) :=
    Traced.outcome_mapError_ok hload _
  have hok := (SparseLayer.store_ok hflat (.inr hlast) e.fold).1
  rw [copyChunk, Traced.outcome_bind_ok hlift]
  exact Traced.outcome_mapError_ok (Step.outcome_result_ok hok) _

theorem copyChunk_eq_ok (hflat : flat.Valid) (hw : 0 < chunk.2.bytes)
    (hbelow : ∀ entry ∈ flat.entries, entry.stop ≤ chunk.1) (h : (copyChunk m flat chunk).outcome = .ok flat') :
    ∃ entry, copied? m chunk = some entry ∧ entry.stop = chunk.1 + chunk.2.bytes ∧ flat'.Valid ∧
      flat'.entries = flat.entries ++ [entry] := by
  obtain ⟨e, hload, hok, rfl⟩ := copyChunk_cases h
  have hlast : chunk.1 + chunk.2.bytes ≤ Address.last := by
    apply Nat.le_of_not_lt
    intro hover
    rw [(SparseLayer.store_overflow hw hover e.fold).2] at hok
    cases hok
  refine ⟨_, copied?_eq_some.2 ⟨e, hload, rfl⟩, rfl, (SparseLayer.store_ok hflat (.inr hlast) e.fold).2.1, ?_⟩
  rw [(SparseLayer.store_eq hflat hw hlast e.fold).1]
  exact Entry.overwrite_behind hflat hbelow (Nat.le_add_right _ _) e.fold chunk.2

theorem copyChunks_eq_ok {l : List (Nat × Width)} (hflat : flat.Valid)
    (hpos : ∀ chunk ∈ l, 0 < chunk.2.bytes) (hasc : l.Pairwise (fun c d => c.1 + c.2.bytes ≤ d.1))
    (hbelow : ∀ entry ∈ flat.entries, ∀ chunk ∈ l, entry.stop ≤ chunk.1)
    (h : (l.foldlM (copyChunk m) flat).outcome = .ok flat') :
    flat'.Valid ∧ flat'.entries.map some = flat.entries.map some ++ l.map (copied? m) := by
  induction l generalizing flat with
  | nil =>
    obtain rfl := Except.ok.inj h
    exact ⟨hflat, (List.append_nil _).symm⟩
  | cons chunk l ih =>
    obtain ⟨flat₁, hchunk, hrest⟩ := Traced.outcome_bind_eq_ok.1 h
    obtain ⟨entry, hentry, hstop, hvalid, hentries⟩ :=
      copyChunk_eq_ok hflat (hpos chunk (by simp)) (fun e he => hbelow e he chunk (by simp)) hchunk
    obtain ⟨hafter, hasc⟩ := List.pairwise_cons.1 hasc
    -- the new entry ends where its chunk does, before all chunks that are left
    have hbelow₁ : ∀ e ∈ flat₁.entries, ∀ later ∈ l, e.stop ≤ later.1 := by
      intro e he later hlater
      rw [hentries] at he
      rcases List.mem_append.1 he with he | he
      · exact hbelow e he later (.tail _ hlater)
      · rw [List.mem_singleton.1 he, hstop]
        exact hafter later hlater
    obtain ⟨hvalid', hentries'⟩ := ih hvalid (fun c hc => hpos c (.tail _ hc)) hasc hbelow₁ hrest
    refine ⟨hvalid', ?_⟩
    rw [hentries', hentries, List.map_append, List.append_assoc, List.map_cons (l := l), hentry]
    rfl

theorem entries_of_flatten (h : (flatten m).outcome = .ok flat) :
    flat.Valid ∧ flat.entries.map some = (ranges (Device.blocks m)).map (copied? m) := by
  rw [outcome_flatten] at h
  have hfresh : ∀ entry ∈ ({} : SparseLayer).entries, ∀ chunk ∈ ranges (Device.blocks m), entry.stop ≤ chunk.1 := by
    intro entry he
    cases he
  exact copyChunks_eq_ok (SparseLayer.valid_fresh {}) (fun _ => pos_of_mem_ranges) (ascending_ranges _) hfresh h

theorem mem_entries_of_flatten (h : (flatten m).outcome = .ok flat) {entry : Entry} :
    entry ∈ flat.entries ↔ ∃ chunk ∈ ranges (Device.blocks m), copied? m chunk = some entry := by
  rw [← List.mem_map, ← (entries_of_flatten h).2]
  simp

theorem exists_entry_of_flatten (h : (flatten m).outcome = .ok flat)
    (hchunk : chunk ∈ ranges (Device.blocks m)) : ∃ entry ∈ flat.entries, copied? m chunk = some entry := by
  have hin : copied? m chunk ∈ (ranges (Device.blocks m)).map (copied? m) := List.mem_map_of_mem hchunk
  rw [← (entries_of_flatten h).2] at hin
  obtain ⟨entry, hentry, heq⟩ := List.mem_map.1 hin
  exact ⟨entry, hentry, heq.symm⟩

end Flatten

end LayeredMemory
