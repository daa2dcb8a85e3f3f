import LayeredMemory.Proofs.Sparse.LastWrite
import Mathlib.Data.List.Sort
import Mathlib.Data.Set.Card

/-!
The entries of a sparse layer are the maximal runs of addresses with the same latest writer. Latest writers have only
one list of runs, so a layer that is reached in two ways is the same if they agree: stores to disjoint ranges commute,
and a store that a later one covers leaves no trace.
-/

namespace LayeredMemory

structure MaximalRun (P : Nat → Prop) (p q : Nat) : Prop where
  nonempty : p < q
  inside : ∀ x, p ≤ x → x < q → P x
  before : ∀ x, x + 1 = p → ¬ P x
  behind : ¬ P q

namespace MaximalRun

variable {P Q : Nat → Prop} {p q p' q' x lo hi : Nat}

theorem congr (h : MaximalRun P p q) (heq : ∀ x, P x ↔ Q x) : MaximalRun Q p q where
  nonempty := h.nonempty
  inside := fun x hlo hhi => (heq x).1 (h.inside x hlo hhi)
  before := fun x hx hQ => h.before x hx ((heq x).2 hQ)
  behind := fun hQ => h.behind ((heq q).2 hQ)

theorem start_le (h : MaximalRun P p q) (h' : MaximalRun P p' q') (hlo : p ≤ x) (hhi' : x < q') : p ≤ p' := by
  apply Nat.le_of_not_lt
  intro hlt
  have hp : p - 1 + 1 = p := by omega
  exact h.before (p - 1) hp (h'.inside (p - 1) (by omega) (by omega))

theorem stop_le (h : MaximalRun P p q) (h' : MaximalRun P p' q') (hlo : p ≤ x) (hhi' : x < q') : q ≤ q' := by
  apply Nat.le_of_not_lt
  intro hlt
  exact h'.behind (h.inside q' (by omega) hlt)

theorem unique (h : MaximalRun P p q) (h' : MaximalRun P p' q') (hlo : p ≤ x) (hhi : x < q) (hlo' : p' ≤ x)
    (hhi' : x < q') : p = p' ∧ q = q' := by
  constructor
  · exact Nat.le_antisymm (h.start_le h' hlo hhi') (h'.start_le h hlo' hhi)
  · exact Nat.le_antisymm (h.stop_le h' hlo hhi') (h'.stop_le h hlo' hhi)

theorem cut (h : MaximalRun P p q) (hstart : p < hi) (hstop : lo < q) (hlt : lo < hi)
    (hin : ∀ x, lo ≤ x → x < hi → (P x ↔ Q x)) (hlo : ∀ x, x + 1 = lo → ¬ Q x) (hhi : hi ≤ q → ¬ Q hi) :
    MaximalRun Q (max p lo) (min q hi) where
  nonempty := by
    have := h.nonempty
    omega
  inside := fun x hx hx' => (hin x (by omega) (by omega)).1 (h.inside x (by omega) (by omega))
  before := by
    intro x hx
    by_cases hcut : p ≤ lo
    · exact hlo x (by omega)
    · rw [← hin x (by omega) (by omega)]
      exact h.before x (by omega)
  behind := by
    by_cases hcut : hi ≤ q
    · rw [Nat.min_eq_right hcut]
      exact hhi hcut
    · rw [Nat.min_eq_left (by omega), ← hin q (by omega) (by omega)]
      exact h.behind

end MaximalRun

namespace Entry

variable {e f : Entry} {l l' : List Entry} {s t : Write} {last : Nat → Option Write}

structure Shows (s : Write) (e : Entry) : Prop where
  source : e.slice.source = s.value
  lo : e.slice.lo.bytes = e.start - s.start
  hi : e.slice.hi.bytes = e.stop - s.start

theorem Shows.clip {lo hi : Nat} (h : e.Shows s) (hover : e.Overlaps lo hi) (hstart : s.start ≤ e.start) :
    (e.clip lo hi).Shows s := by
  have hlo := lo_clip e lo hi
  have hfirst := start_clip hi hover.1
  have hlast := (e.clip lo hi).stop_eq
  have hle := (e.clip lo hi).slice.lo_le_hi
  have hshown := h.lo
  exact ⟨h.source, by omega, by omega⟩

theorem Shows.eq (h : e.Shows s) (h' : f.Shows s) (hstart : e.start = f.start) (hstop : e.stop = f.stop) : e = f := by
  apply ext_range (h.source.trans h'.source.symm) hstart hstop
  rw [h.lo, h'.lo, hstart]

def AreRuns (last : Nat → Option Write) (l : List Entry) : Prop :=
  ∀ e ∈ l, ∃ s, MaximalRun (fun p => last p = some s) e.start e.stop ∧ e.Shows s

namespace AreRuns

theorem below (h : AreRuns last l) (hlast : ∀ p t, last p = some t → t.Covers p) (hw : 0 < s.width.bytes) :
    AreRuns (s.record last) (restrict 0 s.start l) := by
  intro e he
  obtain ⟨f, hf, hover, rfl⟩ := mem_restrict.1 he
  obtain ⟨t, hrun, hshows⟩ := h f hf
  have hpos := lt_of_overlaps_zero hover
  have hcovers := hlast f.start t (hrun.inside f.start (Nat.le_refl _) hrun.nonempty)
  refine ⟨t, ?_, hshows.clip hover hcovers.1⟩
  rw [start_clip _ hover.1, stop_clip hover hpos]
  apply hrun.cut hover.2 hover.1 hpos
  · intro x _ hx
    rw [Write.record_of_not_covers fun hs => Nat.not_lt.2 hs.1 hx]
  · intro x hx
    cases hx
  · -- the new store writes its first address, and `t` begins further down
    intro _ heq
    rw [Write.record_of_covers ⟨Nat.le_refl _, Nat.lt_add_of_pos_right hw⟩] at heq
    obtain rfl := Option.some.inj heq
    exact absurd hcovers.1 (Nat.not_le.2 hover.2)

theorem above (h : AreRuns last l) (hl : Ordered l) (hlast : ∀ p t, last p = some t → t.Covers p)
    (hheld : ∀ p, (held l p).isSome ↔ (last p).isSome) (hw : 0 < s.width.bytes) :
    AreRuns (s.record last) (restrict (s.start + s.width.bytes) Address.last l) := by
  intro e he
  obtain ⟨f, hf, hover, rfl⟩ := mem_restrict.1 he
  obtain ⟨t, hrun, hshows⟩ := h f hf
  have hlt := hl.lt_of_overlaps_last hf hover
  have hcovers := hlast f.start t (hrun.inside f.start (Nat.le_refl _) hrun.nonempty)
  have hne := hrun.nonempty
  have hend := hlast (f.stop - 1) t (hrun.inside _ (Nat.le_sub_one_of_lt hne) (by omega))
  refine ⟨t, ?_, hshows.clip hover hcovers.1⟩
  rw [start_clip _ hover.1, stop_clip hover hlt]
  apply hrun.cut hover.2 hover.1 hlt
  · intro x hx _
    rw [Write.record_of_not_covers fun hs => Nat.not_lt.2 hx hs.2]
  · -- the new store writes its last address, and `t` reaches further up
    intro x hx heq
    rw [Write.record_of_covers ⟨by omega, by omega⟩] at heq
    obtain rfl := Option.some.inj heq
    have := hend.2
    have := hover.1
    omega
  · -- no entry goes as far as the last address, so nobody wrote it
    intro _ heq
    rw [Write.record_of_not_covers fun hs => Nat.lt_asymm hs.2 hlt] at heq
    obtain ⟨g, hg, hin⟩ := isSome_held.1 ((hheld Address.last).2 (by rw [heq]; rfl))
    exact absurd hin.2 (Nat.not_lt.2 (hl.bounded g hg))

theorem fresh (hlast : ∀ p t, last p = some t → t.Covers p) (hw : 0 < s.width.bytes) :
    MaximalRun (fun p => s.record last p = some s) s.start (s.start + s.width.bytes) := by
  have hcovers : ∀ p, s.record last p = some s → s.Covers p := by
    intro p hp
    by_cases hs : s.Covers p
    · exact hs
    · rw [Write.record_of_not_covers hs] at hp
      exact hlast p s hp
  constructor
  · exact Nat.lt_add_of_pos_right hw
  · intro x hlo hhi
    exact Write.record_of_covers ⟨hlo, hhi⟩
  · intro x hx heq
    have := (hcovers x heq).1
    omega
  · intro heq
    exact Nat.lt_irrefl _ (hcovers _ heq).2

theorem overwrite (h : AreRuns last l) (hl : Ordered l) (hlast : ∀ p t, last p = some t → t.Covers p)
    (hheld : ∀ p, (held l p).isSome ↔ (last p).isSome) (hw : 0 < s.width.bytes) :
    AreRuns (s.record last) (overwrite l s.start (s.start + s.width.bytes) s.value s.width) := by
  intro e he
  rcases List.mem_append.1 he with he | he
  · exact h.below hlast hw e he
  rcases List.mem_cons.1 he with rfl | he
  · exact ⟨s, fresh hlast hw, rfl, (Nat.sub_self _).symm, (Nat.add_sub_cancel_left ..).symm⟩
  · exact h.above hl hlast hheld hw e he

theorem subset (h : AreRuns last l) (h' : AreRuns last l') (hheld' : ∀ p, (held l' p).isSome ↔ (last p).isSome)
    (he : e ∈ l) : e ∈ l' := by
  obtain ⟨s, hrun, hshows⟩ := h e he
  have hfirst := hrun.inside e.start (Nat.le_refl _) hrun.nonempty
  obtain ⟨f, hf, hin⟩ := isSome_held.1 ((hheld' e.start).2 (by rw [hfirst]; rfl))
  obtain ⟨t, hrun', hshows'⟩ := h' f hf
  obtain rfl : s = t := Option.some.inj (hfirst.symm.trans (hrun'.inside e.start hin.1 hin.2))
  obtain ⟨hstart, hstop⟩ := hrun.unique hrun' (Nat.le_refl _) hrun.nonempty hin.1 hin.2
  rw [hshows.eq hshows' hstart hstop]
  exact hf

theorem unique (h : AreRuns last l) (h' : AreRuns last l') (hl : Ordered l) (hl' : Ordered l')
    (hheld : ∀ p, (held l p).isSome ↔ (last p).isSome) (hheld' : ∀ p, (held l' p).isSome ↔ (last p).isSome) :
    l = l' := by
  have : Std.Irrefl (fun e f : Entry => e.start < f.start) := ⟨fun _ => Nat.lt_irrefl _⟩
  have : Std.Antisymm (fun e f : Entry => e.start < f.start) := ⟨fun _ _ hef hfe => absurd hef (Nat.lt_asymm hfe)⟩
  exact hl.ascending_starts.eq_of_mem_iff hl'.ascending_starts fun e => ⟨h.subset h' hheld', h'.subset h hheld⟩

end AreRuns

end Entry

namespace SparseLayer

variable {m : SparseLayer} {d : Diagnostics} {ops past past' later : List Op} {s t : Write} {i p : Nat}

theorem covers_of_lastWrite {stores : List Write} (h : lastWrite stores p = some s) : s.Covers p := by
  simpa using List.find?_some h

structure Remembers (m : SparseLayer) (d : Diagnostics) (past : List Op) : Prop where
  diagnostics : m.diagnostics = d
  valid : m.Valid
  held : ∀ p, (m.held p).isSome ↔ (lastWrite (storesSinceClear past) p).isSome
  runs : Entry.AreRuns (lastWrite (storesSinceClear past)) m.entries

namespace Remembers

theorem eq {m' : SparseLayer} (h : m.Remembers d past) (h' : m'.Remembers d past')
    (hsame : lastWrite (storesSinceClear past) = lastWrite (storesSinceClear past')) : m = m' := by
  obtain ⟨entries, d'⟩ := m
  obtain ⟨entries', d''⟩ := m'
  obtain rfl : d' = d := h.diagnostics
  obtain rfl : d'' = d' := h'.diagnostics
  obtain rfl : entries = entries' := h.runs.unique (hsame ▸ h'.runs) h.valid h'.valid h.held (hsame ▸ h'.held)
  rfl

theorem store (h : m.Remembers d past) (hfits : s.Fits) :
    (m.store s.start s.value s.width).state.Remembers d (.store s :: past) := by
  by_cases hw : 0 < s.width.bytes
  · obtain ⟨-, hvalid, hheld⟩ := store_ok h.valid (.inr hfits) s.value
    have hstate := (store_eq h.valid hw hfits s.value).1
    refine ⟨?_, hvalid, ?_, ?_⟩
    · rw [hstate]
      exact h.diagnostics
    · intro p
      rw [hheld, lastWrite_store]
      by_cases hp : s.Covers p
      · rw [Write.write_of_covers hp, Write.record_of_covers hp]
        exact Iff.rfl
      · rw [Write.write_of_not_covers hp, Write.record_of_not_covers hp]
        exact h.held p
    · rw [hstate, lastWrite_store]
      exact h.runs.overwrite h.valid (fun p t => covers_of_lastWrite) h.held hw
  · have hzero : s.width.bytes = 0 := by omega
    rw [(store_zero hzero s.start s.value).1]
    refine ⟨h.diagnostics, h.valid, ?_, ?_⟩
    · rw [lastWrite_store, Write.record_of_zero hzero]
      exact h.held
    · rw [lastWrite_store, Write.record_of_zero hzero]
      exact h.runs

theorem apply {op : Op} (h : m.Remembers d past) (hfits : op.Fits) :
    ∃ m', (op.apply m).outcome = .ok m' ∧ m'.Remembers d (op :: past) := by
  cases op with
  | store s =>
    obtain ⟨hok, -, -⟩ := store_ok h.valid (.inr hfits) s.value
    exact ⟨_, Step.outcome_result_ok hok, h.store hfits⟩
  | clear =>
    refine ⟨m.clear, rfl, h.diagnostics, Entry.Ordered.nil, fun p => Iff.rfl, ?_⟩
    intro e he
    cases he

end Remembers

theorem remembers_run (d : Diagnostics) (hfits : ∀ op ∈ ops, op.Fits) :
    ∃ m, (run { diagnostics := d } ops).outcome = .ok m ∧ m.Remembers d ops.reverse := by
  have hfresh : Remembers { diagnostics := d } d [] := ⟨rfl, valid_fresh d, fun p => Iff.rfl, fun e he => by cases he⟩
  obtain ⟨m, hrun, hm⟩ := run_keeps (P := (Remembers · d ·)) Remembers.apply hfresh hfits
  rw [List.append_nil] at hm
  exact ⟨m, hrun, hm⟩

theorem run_congr {ops' : List Op} (d : Diagnostics) (hfits : ∀ op ∈ ops, op.Fits) (hfits' : ∀ op ∈ ops', op.Fits)
    (hsame : ∀ p, lastWrite (storesSinceClear ops.reverse) p = lastWrite (storesSinceClear ops'.reverse) p) :
    (run { diagnostics := d } ops).outcome = (run { diagnostics := d } ops').outcome := by
  obtain ⟨m, hrun, hm⟩ := remembers_run d hfits
  obtain ⟨m', hrun', hm'⟩ := remembers_run d hfits'
  rw [hrun, hrun', hm.eq hm' (funext hsame)]

theorem lastWrite_append_congr (later : List Op)
    (hsame : lastWrite (storesSinceClear past) p = lastWrite (storesSinceClear past') p) :
    lastWrite (storesSinceClear (later ++ past)) p = lastWrite (storesSinceClear (later ++ past')) p := by
  induction later with
  | nil => exact hsame
  | cons op later ih =>
    cases op with
    | store s =>
      rw [List.cons_append, List.cons_append, lastWrite_store, lastWrite_store, Write.record, Write.record, ih]
    | clear => rfl

theorem lastWrite_swap (hapart : ¬ (s.Covers p ∧ t.Covers p)) :
    lastWrite (storesSinceClear (.store s :: .store t :: past)) p =
      lastWrite (storesSinceClear (.store t :: .store s :: past)) p := by
  simp only [lastWrite_store, Write.record]
  by_cases hs : s.Covers p
  · have ht : ¬ t.Covers p := fun ht => hapart ⟨hs, ht⟩
    simp only [if_pos hs, if_neg ht]
  · simp only [if_neg hs]

theorem lastWrite_covered (hwithin : s.Covers p → t.Covers p) (between : List Op) :
    lastWrite (storesSinceClear (.store t :: (between ++ .store s :: past))) p =
      lastWrite (storesSinceClear (.store t :: (between ++ past))) p := by
  rw [lastWrite_store, lastWrite_store]
  by_cases ht : t.Covers p
  · rw [Write.record_of_covers ht, Write.record_of_covers ht]
  · rw [Write.record_of_not_covers ht, Write.record_of_not_covers ht]
    apply lastWrite_append_congr
    rw [lastWrite_store, Write.record_of_not_covers fun hs => ht (hwithin hs)]

def Op.Reaches (p : Nat) : Op → Prop
  | store s => s.Covers p
  | clear => True

structure LatestWriter (ops : List Op) (i : Nat) (s : Write) (p : Nat) : Prop where
  stored : ops[i]? = some (.store s)
  covers : s.Covers p
  last : ∀ j op, i < j → ops[j]? = some op → ¬ op.Reaches p

namespace LatestWriter

theorem getElem?_concat_eq_some {op op' : Op} :
    (ops ++ [op])[i]? = some op' ↔ ops[i]? = some op' ∨ (i = ops.length ∧ op = op') := by
  rcases Nat.lt_trichotomy i ops.length with hlt | rfl | hgt
  · rw [List.getElem?_append_left hlt]
    simp [Nat.ne_of_lt hlt]
  · simp
  · rw [List.getElem?_eq_none (by simp; omega), List.getElem?_eq_none (by omega)]
    simp [Nat.ne_of_gt hgt]

theorem concat_iff {op : Op} : LatestWriter (ops ++ [op]) i s p ↔
    (i = ops.length ∧ op = .store s ∧ s.Covers p) ∨ (LatestWriter ops i s p ∧ ¬ op.Reaches p) := by
  have hbound : ∀ {j op'}, ops[j]? = some op' → j < ops.length := fun h => (List.getElem?_eq_some_iff.1 h).1
  constructor
  · intro h
    rcases getElem?_concat_eq_some.1 h.stored with hi | ⟨hi, hop⟩
    · refine .inr ⟨⟨hi, h.covers, ?_⟩, ?_⟩
      · intro j op' hj hop
        exact h.last j op' hj (getElem?_concat_eq_some.2 (.inl hop))
      · exact h.last ops.length op (hbound hi) (getElem?_concat_eq_some.2 (.inr ⟨rfl, rfl⟩))
    · exact .inl ⟨hi, hop, h.covers⟩
  · rintro (⟨rfl, rfl, hcovers⟩ | ⟨h, hop⟩)
    · refine ⟨getElem?_concat_eq_some.2 (.inr ⟨rfl, rfl⟩), hcovers, ?_⟩
      intro j op' hj hop
      rcases getElem?_concat_eq_some.1 hop with hop | ⟨hlast, -⟩
      · exact absurd (hbound hop) (Nat.lt_asymm hj)
      · exact absurd hlast (Nat.ne_of_gt hj)
    · refine ⟨getElem?_concat_eq_some.2 (.inl h.stored), h.covers, ?_⟩
      intro j op' hj hop'
      rcases getElem?_concat_eq_some.1 hop' with hop' | ⟨-, rfl⟩
      · exact h.last j op' hj hop'
      · exact hop

theorem exists_iff : (∃ i, LatestWriter ops i s p) ↔ lastWrite (storesSinceClear ops.reverse) p = some s := by
  induction ops using List.reverseRecOn with
  | nil =>
    constructor
    · rintro ⟨i, h⟩
      cases h.stored
    · intro h
      cases h
  | append_singleton ops op ih =>
    simp only [concat_iff, exists_or, exists_and_right, ih, exists_eq, true_and]
    rw [List.reverse_concat]
    cases op with
    | clear => simp [storesSinceClear, lastWrite, Op.Reaches]
    | store t =>
      rw [lastWrite_store, Op.store.injEq, Op.Reaches]
      by_cases ht : t.Covers p
      · rw [Write.record_of_covers ht]
        simp only [ht, not_true_eq_false, and_false, or_false, Option.some.injEq]
        exact and_iff_left_of_imp fun hts => hts ▸ ht
      · rw [Write.record_of_not_covers ht]
        simp only [ht, not_false_eq_true, and_true]
        exact or_iff_right fun hs => ht (hs.1 ▸ hs.2)

theorem index_le {j q : Nat} (h : LatestWriter ops i s p) (h' : LatestWriter ops j s q) : j ≤ i := by
  apply Nat.le_of_not_lt
  intro hlt
  exact h.last j _ hlt h'.stored h.covers

/-- Two stores may have the same data, but not both of them are latest writers. -/
theorem iff_lastWrite {q : Nat} (h : LatestWriter ops i s q) :
    LatestWriter ops i s p ↔ lastWrite (storesSinceClear ops.reverse) p = some s := by
  rw [← exists_iff]
  constructor
  · intro hp
    exact ⟨i, hp⟩
  · rintro ⟨j, hp⟩
    rw [Nat.le_antisymm (hp.index_le h) (h.index_le hp)]
    exact hp

theorem run_iff {q : Nat} (h : LatestWriter ops i s x) :
    MaximalRun (LatestWriter ops i s) p q ↔
      MaximalRun (fun y => lastWrite (storesSinceClear ops.reverse) y = some s) p q :=
  ⟨fun hrun => hrun.congr fun _ => h.iff_lastWrite, fun hrun => hrun.congr fun _ => h.iff_lastWrite.symm⟩

end LatestWriter

namespace Remembers

theorem run_of_entry {e : Entry} (h : m.Remembers d ops.reverse) (he : e ∈ m.entries) :
    ∃ i s, MaximalRun (LatestWriter ops i s) e.start e.stop ∧ e.Shows s := by
  obtain ⟨s, hrun, hshows⟩ := h.runs e he
  obtain ⟨i, hi⟩ := LatestWriter.exists_iff.2 (hrun.inside e.start (Nat.le_refl _) hrun.nonempty)
  exact ⟨i, s, hi.run_iff.2 hrun, hshows⟩

theorem entry_of_run {q : Nat} (h : m.Remembers d ops.reverse) (hrun : MaximalRun (LatestWriter ops i s) p q) :
    ∃ e ∈ m.entries, e.start = p ∧ e.stop = q ∧ e.Shows s := by
  have hi := hrun.inside p (Nat.le_refl _) hrun.nonempty
  have hfirst := hi.iff_lastWrite.1 hi
  obtain ⟨e, he, hin⟩ := Entry.isSome_held.1 ((h.held p).2 (by rw [hfirst]; rfl))
  obtain ⟨t, hrun', hshows⟩ := h.runs e he
  obtain rfl : s = t := Option.some.inj (hfirst.symm.trans (hrun'.inside p hin.1 hin.2))
  obtain ⟨hstart, hstop⟩ := hrun'.unique (hi.run_iff.1 hrun) hin.1 hin.2 (Nat.le_refl _) hrun.nonempty
  exact ⟨e, he, hstart, hstop, hshows⟩

theorem size_eq (h : m.Remembers d ops.reverse) :
    m.size = Set.ncard {r : Nat × Nat | ∃ i s, MaximalRun (LatestWriter ops i s) r.1 r.2} := by
  have hruns : {r : Nat × Nat | ∃ i s, MaximalRun (LatestWriter ops i s) r.1 r.2} =
      ((m.entries.map fun e => (e.start, e.stop)).toFinset : Set (Nat × Nat)) := by
    ext ⟨p, q⟩
    rw [Finset.mem_coe, List.mem_toFinset, List.mem_map]
    constructor
    · rintro ⟨i, s, hrun⟩
      obtain ⟨e, he, hstart, hstop, -⟩ := h.entry_of_run hrun
      exact ⟨e, he, Prod.ext hstart hstop⟩
    · rintro ⟨e, he, heq⟩
      obtain ⟨rfl, rfl⟩ := Prod.mk.inj heq
      obtain ⟨i, s, hrun, -⟩ := h.run_of_entry he
      exact ⟨i, s, hrun⟩
  have hdistinct : (m.entries.map fun e => (e.start, e.stop)).Nodup := by
    apply List.pairwise_map.2
    apply h.valid.ascending.imp_of_mem
    intro e f he _ hle heq
    have hne := h.valid.nonempty e he
    have := congrArg Prod.fst heq
    omega
  rw [hruns, Set.ncard_coe_finset, List.toFinset_card_of_nodup hdistinct, List.length_map, size]

end Remembers

/-- The entries show whose bytes they are and nothing else, so disjoint stores commute and a covered store leaves no
trace. -/
theorem entries_are_writer_runs (d : Diagnostics) (ops : List Op) (hfits : ∀ op ∈ ops, op.Fits) :
    ∃ m, (run { diagnostics := d } ops).outcome = .ok m ∧
      m.entries.Pairwise (fun e f => e.stop ≤ f.start) ∧
      (∀ e ∈ m.entries, ∃ i s, MaximalRun (LatestWriter ops i s) e.start e.stop ∧ e.Shows s) ∧
      (∀ i s p q, MaximalRun (LatestWriter ops i s) p q → ∃ e ∈ m.entries, e.start = p ∧ e.stop = q ∧ e.Shows s) ∧
      m.size = Set.ncard {r : Nat × Nat | ∃ i s, MaximalRun (LatestWriter ops i s) r.1 r.2} ∧
      (∀ s t later, (∀ op ∈ .store s :: .store t :: later, op.Fits) → (∀ p, ¬ (s.Covers p ∧ t.Covers p)) →
        (run { diagnostics := d } (ops ++ .store s :: .store t :: later)).outcome =
          (run { diagnostics := d } (ops ++ .store t :: .store s :: later)).outcome) ∧
      (∀ s between t later, (∀ op ∈ .store s :: (between ++ .store t :: later), op.Fits) →
        (∀ p, s.Covers p → t.Covers p) →
        (run { diagnostics := d } (ops ++ .store s :: (between ++ .store t :: later))).outcome =
          (run { diagnostics := d } (ops ++ (between ++ .store t :: later))).outcome) := by
  obtain ⟨m, hrun, hm⟩ := remembers_run d hfits
  refine ⟨m, hrun, hm.valid.ascending, fun e => hm.run_of_entry, fun i s p q => hm.entry_of_run, hm.size_eq, ?_, ?_⟩
  · intro s t later hfits' hapart
    have hswapped : ∀ op ∈ .store t :: .store s :: later, op.Fits := by
      intro op hop
      exact hfits' op ((List.Perm.swap ..).mem_iff.1 hop)
    apply run_congr d (List.forall_mem_append.2 ⟨hfits, hfits'⟩) (List.forall_mem_append.2 ⟨hfits, hswapped⟩)
    intro p
    simp only [List.reverse_append, List.reverse_cons, List.append_assoc, List.singleton_append]
    apply lastWrite_append_congr
    exact lastWrite_swap fun hboth => hapart p hboth.symm
  · intro s between t later hfits' hwithin
    have hrest := (List.forall_mem_cons.1 hfits').2
    apply run_congr d (List.forall_mem_append.2 ⟨hfits, hfits'⟩) (List.forall_mem_append.2 ⟨hfits, hrest⟩)
    intro p
    simp only [List.reverse_append, List.reverse_cons, List.append_assoc, List.singleton_append]
    apply lastWrite_append_congr
    exact lastWrite_covered (hwithin p) between.reverse

/-- A store into the middle of a longer one splits it, and the part behind it is the last byte of the value. -/
theorem entries_are_writer_runs_split :
    let first : Write := ⟨0, .symbol "x" .w32, .w32⟩
    let second : Write := ⟨1, .const (.ofNat .w8 0xff), .w16⟩
    let ops : List Op := [] ++ [.store first] ++ [.store second]
    (∀ op ∈ ops, op.Fits) ∧
      ∃ m, (run {} ops).outcome = .ok m ∧ ∃ e ∈ m.entries, e.start = 3 ∧ e.stop = 4 ∧
        e.slice.source = first.value ∧ e.slice.lo.bytes = 3 ∧ e.slice.hi.bytes = 4 := by
  intro first second ops
  have hfits : ∀ op ∈ ops, op.Fits := by
    refine List.forall_mem_append.2 ⟨List.forall_mem_append.2 ⟨List.forall_mem_nil _, ?_⟩, ?_⟩
    · exact List.forall_mem_singleton.2 (by decide : 0 + 4 ≤ Address.last)
    · exact List.forall_mem_singleton.2 (by decide : 1 + 2 ≤ Address.last)
  have hlatest : ∀ p, LatestWriter ops 0 first p ↔ p = 0 ∨ p = 3 := by
    intro p
    have hfirst : first.Covers p ↔ p < 4 := ⟨fun h => h.2, fun h => ⟨Nat.zero_le p, h⟩⟩
    have hsecond : Op.Reaches p (.store second) ↔ 1 ≤ p ∧ p < 3 := Iff.rfl
    have hnone : ¬ LatestWriter [] 0 first p := fun h => by cases h.stored
    rw [LatestWriter.concat_iff, LatestWriter.concat_iff, hfirst, hsecond]
    simp only [List.length_append, List.length_nil, List.length_singleton, hnone, false_and, or_false, true_and]
    omega
  have hrun : MaximalRun (LatestWriter ops 0 first) 3 4 := by
    constructor
    · decide
    · intro x hlo hhi
      exact (hlatest x).2 (by omega)
    · intro x hx h
      have := (hlatest x).1 h
      omega
    · intro h
      have := (hlatest 4).1 h
      omega
  obtain ⟨m, hok, -, -, hentry, -⟩ := entries_are_writer_runs {} ops hfits
  obtain ⟨e, he, hstart, hstop, hshows⟩ := hentry 0 first 3 4 hrun
  refine ⟨hfits, m, hok, e, he, hstart, hstop, hshows.source, ?_, ?_⟩
  · rw [hshows.lo, hstart]
    rfl
  · rw [hshows.hi, hstop]
    rfl

end SparseLayer

end LayeredMemory
