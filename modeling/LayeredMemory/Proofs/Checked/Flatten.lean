import LayeredMemory.Proofs.Checked.Sparse
import LayeredMemory.Proofs.Memory.AnyDevice

namespace LayeredMemory

def Failure.asMisfit : Failure → Misfit
  | .refusal cause => .refused cause
  | .fault cause => .fault cause

namespace Checked

abbrev Loads := Nat → Width → Except Misfit (Option Expr)

def copyRange (load : Loads) (flat : SparseLayer) (start stop : Nat) : Except Misfit SparseLayer :=
  if start < stop then do
    let left ← sub stop start
    let width ← Address.widthOf (min left Flatten.chunkSize)
    match ← load start width with
    | none => throw (.refused (.incompleteLoad start width))
    | some e => do
      let folded ← Folding.fold e
      let flat ← Sparse.store flat start folded width
      let next ← add start width.bytes
      if start < next then copyRange load flat next stop else throw (.stuck start)
  else return flat
termination_by stop - start

def flatten (load : Loads) (blocks : Except Misfit (List (Interval Nat))) : Except Misfit SparseLayer := do
  let found ← blocks
  found.foldlM (fun flat block => copyRange load flat block.lo block.hi) {}

variable {μ : Type} [Device μ] {m : μ} {load : Loads} {blocks : Except Misfit (List (Interval Nat))}
  {flat : SparseLayer} {start stop : Nat}

def loadsOf (m : μ) : Loads := fun a w => (Device.load m a w).outcome.mapError .fault

def Faithful (m : μ) (load : Loads) : Prop := ∀ a w, a + w.bytes ≤ Address.last → load a w = loadsOf m a w

theorem copyRange_eq (hloads : Faithful m load) (hflat : flat.Valid) (start : Nat) (hstop : stop ≤ Address.last) :
    copyRange load flat start stop = (Flatten.copyRange m flat start stop).outcome.mapError Failure.asMisfit ∧
      ∀ flat', (Flatten.copyRange m flat start stop).outcome = .ok flat' → flat'.Valid := by
  induction flat, start using Flatten.copyRange.induct stop with
  | case1 flat start hlt chunk ih =>
    have hpos := Flatten.firstChunk_pos hlt
    have hlast : start + chunk.2.bytes ≤ Address.last := by
      change start + min (stop - start) Flatten.chunkSize ≤ Address.last
      omega
    have hwidth : Address.widthOf (min (stop - start) Flatten.chunkSize) = .ok chunk.2 := Address.widthOf_ok _
    have hround : Flatten.copyRange m flat start stop = Flatten.copyChunk m flat (start, chunk.2) >>= fun flat =>
        Flatten.copyRange m flat (start + chunk.2.bytes) stop := by
      rw [Flatten.copyRange, if_pos hlt]
      rfl
    rw [hround, copyRange, if_pos hlt, bind_ok (overflow_ok (sub_ok (Nat.le_of_lt hlt))), bind_ok (fault_ok hwidth)]
    have hasked : load start chunk.2 = (Device.load m start chunk.2).outcome.mapError .fault := hloads _ _ hlast
    cases hload : (Device.load m start chunk.2).outcome with
    | error fault =>
      have hfails : (Flatten.copyChunk m flat (start, chunk.2)).outcome = .error (.fault fault) :=
        Flatten.copyChunk_fails (Flatten.failure?_eq_some.2 (.inr ⟨fault, hload, rfl⟩)) flat
      rw [hload] at hasked
      rw [hasked, Traced.outcome_bind_error hfails]
      exact ⟨rfl, fun flat' h => by cases h⟩
    | ok r =>
      rw [hload] at hasked
      rw [bind_ok hasked]
      cases r with
      | none =>
        have hfails : (Flatten.copyChunk m flat (start, chunk.2)).outcome =
            .error (.refusal (.incompleteLoad start chunk.2)) :=
          Flatten.copyChunk_fails (Flatten.failure?_eq_some.2 (.inl ⟨hload, rfl⟩)) flat
        rw [Traced.outcome_bind_error hfails]
        exact ⟨rfl, fun flat' h => by cases h⟩
      | some e =>
        dsimp only
        rw [bind_ok (Folding.fold_ok e), bind_ok (Sparse.store_ok hflat hlast e.fold),
          bind_ok (overflow_ok (add_ok hlast)), if_pos (Nat.lt_add_of_pos_right hpos),
          Traced.outcome_bind_ok (Flatten.copyChunk_store hflat hlast hload)]
        -- the flat layer stays valid, which is all that the later chunks need of it
        exact ih _ (SparseLayer.store_ok hflat (.inr hlast) e.fold).2.1
  | case2 flat start hge =>
    rw [copyRange, if_neg hge, Flatten.copyRange, if_neg hge]
    refine ⟨rfl, fun flat' h => ?_⟩
    obtain rfl := Except.ok.inj h
    exact hflat

theorem copyRanges_eq (hloads : Faithful m load) {l : List (Interval Nat)} (hflat : flat.Valid)
    (hl : ∀ i ∈ l, i.hi ≤ Address.last) :
    l.foldlM (fun flat block => copyRange load flat block.lo block.hi) flat =
      (l.foldlM (fun flat block => Flatten.copyRange m flat block.lo block.hi) flat).outcome.mapError
        Failure.asMisfit := by
  induction l generalizing flat with
  | nil => rfl
  | cons i l ih =>
    obtain ⟨hfirst, hvalid⟩ := copyRange_eq hloads hflat i.lo (hl i (by simp))
    rw [List.foldlM_cons, List.foldlM_cons, hfirst]
    cases hcopied : (Flatten.copyRange m flat i.lo i.hi).outcome with
    | error f =>
      rw [Traced.outcome_bind_error hcopied]
      rfl
    | ok next =>
      rw [Traced.outcome_bind_ok hcopied]
      exact ih (hvalid next hcopied) fun j hj => hl j (.tail _ hj)

theorem flatten_eq (hloads : Faithful m load) (hblocks : blocks = .ok (Device.blocks m).intervals)
    (h : Flatten.InSpace m) : flatten load blocks = (LayeredMemory.flatten m).outcome.mapError Failure.asMisfit := by
  rw [flatten, bind_ok hblocks, LayeredMemory.flatten, Traced.outcome_bind_ok (Traced.outcome_record _)]
  exact copyRanges_eq hloads (SparseLayer.valid_fresh {}) h

end Checked

/-- What flattening makes of a device, by the chunks of its blocks. Only the first chunk without a value matters. -/
structure Flattens {μ : Type} [Device μ] (m : μ) (r : Except Failure SparseLayer) : Prop where
  incomplete : (∃ chunk ∈ Flatten.cuts m, ¬ Flatten.Gives m chunk) →
    ∃ chunk ∈ Flatten.cuts m, (∀ c ∈ Flatten.cuts m, c.1 < chunk.1 → Flatten.Gives m c) ∧
      (((Device.load m chunk.1 chunk.2).outcome = .ok none ∧
          r = .error (.refusal (.incompleteLoad chunk.1 chunk.2))) ∨
        ∃ fault, (Device.load m chunk.1 chunk.2).outcome = .error fault ∧ r = .error (.fault fault))
  complete : (∀ chunk ∈ Flatten.cuts m, Flatten.Gives m chunk) →
    ∃ flat, r = .ok flat ∧ flat.entries.map (fun entry => (entry.start, entry.slice.width)) = Flatten.cuts m ∧
      flat.size = Flatten.total (Device.blocks m).intervals ∧
      flat.blocks = Device.blocks m ∧
      ∀ chunk ∈ Flatten.cuts m, ∃ e, (Device.load m chunk.1 chunk.2).outcome = .ok (some e) ∧
        (flat.load chunk.1 chunk.2).outcome = .ok (some (e.fold.resized chunk.2))

section

variable {μ : Type} [Device μ] {m : μ}

theorem flattens (hspace : Flatten.InSpace m) : Flattens m (flatten m).outcome where
  incomplete := by
    intro h
    rw [← Flatten.ranges_eq_cuts] at h ⊢
    simp only [← Flatten.failure?_eq_none] at h ⊢
    obtain ⟨chunk, hchunk, f, hf, hbefore, hfails⟩ := Flatten.flatten_fails hspace h
    refine ⟨chunk, hchunk, hbefore, ?_⟩
    rcases Flatten.failure?_eq_some.1 hf with ⟨hload, rfl⟩ | ⟨fault, hload, rfl⟩
    · exact .inl ⟨hload, hfails⟩
    · exact .inr ⟨fault, hload, hfails⟩
  complete := by
    intro h
    rw [← Flatten.ranges_eq_cuts] at h
    obtain ⟨flat, hflat, -⟩ := Flatten.flatten_gives hspace fun chunk hchunk =>
      Flatten.failure?_eq_none.2 (h chunk hchunk)
    have hranges := Flatten.ranges_of_flatten hflat
    have hsize := congrArg List.length hranges
    rw [List.length_map, Flatten.ranges_eq_cuts, Flatten.cuts, Flatten.length_flatMap_grid] at hsize
    rw [← Flatten.ranges_eq_cuts]
    exact ⟨flat, hflat, hranges, hsize, Flatten.blocks_of_flatten hflat,
      fun chunk hchunk => Flatten.load_of_flatten hflat hchunk⟩

/-- With the arithmetic of machine words, and in a loop that has to get further in every round, the outcome is the
same. -/
theorem flatten_any_device (m : μ) (hspace : Flatten.InSpace m) :
    Flattens m (flatten m).outcome ∧
      Checked.flatten (Checked.loadsOf m) (.ok (Device.blocks m).intervals) =
        (flatten m).outcome.mapError Failure.asMisfit :=
  ⟨flattens hspace, Checked.flatten_eq (fun _ _ _ => rfl) rfl hspace⟩

end

structure Claimant where
  blocks : IntervalSet Nat
  value? : Nat → Option Expr

instance : Device Claimant where
  load d a _ := return d.value? a
  store d _ _ _ := .stay d (return ())
  missing _ a w := Address.requested a w
  blocks := Claimant.blocks
  depth _ := 1

/-- All of the last 4097 bytes, which are a chunk and one byte, are claimed to hold `x`, from an address on not even
that. -/
def claimUpTo (stop : Nat) : Claimant where
  blocks := .ofInterval ⟨Address.last - 0x1001, Address.last, by decide⟩
  value? := fun a => if a < stop then some (.symbol "x" .w8) else none

theorem inSpace_claimUpTo (stop : Nat) : Flatten.InSpace (claimUpTo stop) := by
  intro i hi
  obtain rfl := List.mem_singleton.1 hi
  exact Nat.le_refl _

theorem mem_cuts_claimUpTo {stop : Nat} {chunk : Nat × Width} : chunk ∈ Flatten.cuts (claimUpTo stop) ↔
    chunk = (Address.last - 0x1001, ⟨0x1000, by decide⟩) ∨ chunk = (Address.last - 1, .w8) := by
  have hcuts : Flatten.cuts (claimUpTo stop) =
      [(Address.last - 0x1001, ⟨0x1000, by decide⟩), (Address.last - 1, .w8)] := rfl
  rw [hcuts]
  simp

theorem flatten_any_device_claimed :
    (∃ flat, (flatten (claimUpTo Address.last)).outcome = .ok flat ∧ flat.size = 2 ∧
        (flat.load (Address.last - 0x1001) ⟨0x1000, by decide⟩).outcome =
          .ok (some (.resize (.symbol "x" .w8) ⟨0x1000, by decide⟩))) ∧
      Checked.flatten (Checked.loadsOf (claimUpTo (Address.last - 1)))
          (.ok (claimUpTo (Address.last - 1)).blocks.intervals) =
        .error (.refused (.incompleteLoad (Address.last - 1) .w8)) := by
  obtain ⟨⟨-, complete⟩, -⟩ := flatten_any_device (claimUpTo Address.last) (inSpace_claimUpTo _)
  obtain ⟨⟨incomplete, -⟩, hchecked⟩ := flatten_any_device (claimUpTo (Address.last - 1)) (inSpace_claimUpTo _)
  constructor
  · have hgives : ∀ chunk ∈ Flatten.cuts (claimUpTo Address.last), Flatten.Gives (claimUpTo Address.last) chunk := by
      intro chunk hchunk
      obtain rfl | rfl := mem_cuts_claimUpTo.1 hchunk
      · exact ⟨_, rfl⟩
      · exact ⟨_, rfl⟩
    obtain ⟨flat, hflat, -, hsize, -, hload⟩ := complete hgives
    obtain ⟨e, he, hload⟩ := hload _ (mem_cuts_claimUpTo.2 (.inl rfl))
    obtain rfl : .symbol "x" .w8 = e := Option.some.inj (Except.ok.inj he)
    exact ⟨flat, hflat, hsize, hload⟩
  · have hlast : ¬ Flatten.Gives (claimUpTo (Address.last - 1)) (Address.last - 1, .w8) := by
      rintro ⟨e, he⟩
      cases he
    obtain ⟨chunk, hchunk, -, ⟨hnone, hfails⟩ | ⟨fault, herror, -⟩⟩ :=
      incomplete ⟨_, mem_cuts_claimUpTo.2 (.inr rfl), hlast⟩
    · obtain rfl | rfl := mem_cuts_claimUpTo.1 hchunk
      · cases hnone
      · refine hchecked.trans ?_
        rw [hfails]
        rfl
    · cases herror

end LayeredMemory
