import LayeredMemory.Proofs.Image.Overlaps
import LayeredMemory.Proofs.Image.Runs

namespace LayeredMemory

namespace Block

open scoped List

variable {given l : List Block} {stop start : Nat}

def Overruns (b : Block) : Prop := 0 < b.bytes.size ∧ Address.last < b.stop

instance (b : Block) : Decidable b.Overruns := inferInstanceAs (Decidable (_ ∧ _))

def hasBytes (b : Block) : Bool := !b.bytes.isEmpty

theorem hasBytes_iff {b : Block} : b.hasBytes = true ↔ b.start < b.stop := by
  simp only [hasBytes, ByteArray.isEmpty, Bool.not_eq_true', beq_eq_false_iff_ne, stop]
  omega

theorem overruns_iff {b : Block} : b.Overruns ↔ b.hasBytes = true ∧ Address.last < b.stop := by
  rw [hasBytes_iff, Overruns, stop]
  omega

structure Arranges (l given : List Block) : Prop where
  perm : l.Perm (given.filter hasBytes)
  sorted : l.Pairwise fun b c => b.start ≤ c.start

theorem arranges_mergeSort (given : List Block) :
    Arranges ((given.filter hasBytes).mergeSort startsFirst) given where
  perm := List.mergeSort_perm _ _
  sorted := by
    have htrans : ∀ b c d : Block, startsFirst b c = true → startsFirst c d = true → startsFirst b d = true := by
      simp only [startsFirst, decide_eq_true_eq]
      omega
    have htotal : ∀ b c : Block, (startsFirst b c || startsFirst c b) = true := by
      simp only [startsFirst, Bool.or_eq_true, decide_eq_true_eq]
      omega
    exact (List.pairwise_mergeSort htrans htotal _).imp of_decide_eq_true

theorem meets_filled : Meets (given.filter hasBytes) stop start ↔ Meets given stop start := by
  constructor
  · rintro ⟨b, c, rest, hl, h⟩
    refine ⟨b, c, rest ++ given.filter (fun b => !b.hasBytes), ?_, h⟩
    calc given
      _ ~ given.filter hasBytes ++ given.filter fun b => !b.hasBytes := (List.filter_append_perm hasBytes given).symm
      _ ~ b :: c :: rest ++ given.filter fun b => !b.hasBytes := hl.append_right _
  · rintro ⟨b, c, rest, hl, hstop, hb, hstart, hc⟩
    refine ⟨b, c, rest.filter hasBytes, ?_, hstop, hb, hstart, hc⟩
    have hb' : b.hasBytes = true := hasBytes_iff.2 (Nat.lt_of_le_of_lt hb.1 hb.2)
    have hfiltered := hl.filter hasBytes
    rwa [List.filter_cons_of_pos hb', List.filter_cons_of_pos (hasBytes_iff.2 hc)] at hfiltered

namespace Arranges

theorem meets (h : Arranges l given) : Meets l stop start ↔ Meets given stop start :=
  .trans ⟨Meets.perm h.perm, Meets.perm h.perm.symm⟩ meets_filled

theorem nonempty (h : Arranges l given) : ∀ b ∈ l, b.start < b.stop := by
  intro b hb
  exact hasBytes_iff.1 (List.mem_filter.1 (h.perm.mem_iff.1 hb)).2

theorem bounded (h : Arranges l given) (hin : ∀ b ∈ given, ¬ b.Overruns) : ∀ b ∈ l, b.stop ≤ Address.last := by
  intro b hb
  have hne := h.nonempty b hb
  have hstop : b.stop = b.start + b.bytes.size := rfl
  have hb := hin b (List.mem_filter.1 (h.perm.mem_iff.1 hb)).1
  rw [Overruns, not_and] at hb
  exact Nat.le_of_not_lt (hb (by omega))

theorem meetsFirst (h : Arranges l given) (hclash : clash? l = some (stop, start)) :
    MeetsFirst given stop start := by
  obtain ⟨hmeets, hfirst⟩ := meetsFirst_of_clash? h.sorted h.nonempty hclash
  exact ⟨h.meets.1 hmeets, fun stop' start' h' => hfirst stop' start' (h.meets.2 h')⟩

theorem ordered (h : Arranges l given) (hin : ∀ b ∈ given, ¬ b.Overruns) (hclash : clash? l = none) :
    Ordered 0 l where
  nonempty := h.nonempty
  ascending := apart_of_clash?_none h.sorted hclash
  bounded := h.bounded hin

theorem clash?_eq_none (h : Arranges l given) (hapart : ∀ p, ¬ Shared given p) : clash? l = none := by
  cases hclash : clash? l with
  | none => rfl
  | some ends => exact absurd (h.meetsFirst hclash).1.shared (hapart _)

theorem exists_clash (h : Arranges l given) {p : Nat} (hp : Shared given p) :
    ∃ stop start, clash? l = some (stop, start) := by
  obtain ⟨stop, start, hmeets⟩ := hp.meets
  cases hclash : clash? l with
  | none =>
    have hapart := apart_of_clash?_none h.sorted hclash
    exact absurd (h.meets.2 hmeets) (not_meets_of_pairwise hapart)
  | some ends => exact ⟨ends.1, ends.2, rfl⟩

theorem byteIn_eq (h : Arranges l given) (hordered : Ordered 0 l) (p : Nat) :
    byteIn l p = byteIn given p := by
  rw [← hordered.byteIn_perm h.perm]
  exact ImageLayer.byteIn_filled given p

theorem byteIn_eq_some (h : Arranges l given) (hordered : Ordered 0 l) {p : Nat} {u : UInt8} :
    byteIn l p = some u ↔ ∃ b ∈ given, b.at? p = some u := by
  constructor
  · intro hu
    rw [h.byteIn_eq hordered] at hu
    exact exists_of_byteIn hu
  · rintro ⟨b, hb, hu⟩
    have hp : b.Contains p := isSome_at?.1 (by rw [hu]; rfl)
    have hfilled : b.hasBytes = true := hasBytes_iff.2 (Nat.lt_of_le_of_lt hp.1 hp.2)
    rw [hordered.byteIn_of_mem (h.perm.mem_iff.2 (List.mem_filter.2 ⟨hb, hfilled⟩)) hp, hu]

end Arranges

end Block

def Refusal.Alike : Refusal → Refusal → Prop
  | .addressOverflow _ _, .addressOverflow _ _ => True
  | .overlappingBlocks _ start, .overlappingBlocks _ start' => start = start'
  | _, _ => False

namespace ImageLayer

open Block (Overruns Shared MeetsFirst Arranges)

variable {given given' l : List Block} {d : Diagnostics} {r r' : Except Refusal ImageLayer}

structure Verdict (given : List Block) (r : Except Refusal ImageLayer) : Prop where
  overflow : (∃ b ∈ given, b.Overruns) → ∃ before b after, given = before ++ b :: after ∧ b.Overruns ∧
    (∀ c ∈ before, ¬ c.Overruns) ∧ r = .error (.addressOverflow b.start b.bytes.size)
  overlap : (∀ b ∈ given, ¬ b.Overruns) → (∃ p, Shared given p) →
    ∃ stop start, r = .error (.overlappingBlocks stop start) ∧ start < stop ∧ MeetsFirst given stop start
  accepted : (∀ b ∈ given, ¬ b.Overruns) → (∀ p, ¬ Shared given p) →
    ∃ m, r = .ok m ∧ (∀ p u, Block.byteIn m.blocks p = some u ↔ ∃ b ∈ given, b.at? p = some u) ∧
      Block.MaximalRuns (Block.byteIn m.blocks) m.blocks

def SameVerdict : Except Refusal ImageLayer → Except Refusal ImageLayer → Prop
  | .ok m, .ok m' => m.blocks = m'.blocks
  | .error e, .error e' => e.Alike e'
  | _, _ => False

def ofSorted (l : List Block) (d : Diagnostics) : Traced Refusal ImageLayer := do
  let blocks ← Block.coalesce l
  Traced.record (.imageCreated blocks.length)
  return ⟨blocks, d⟩

theorem ofSorted_verdict (h : Arranges l given) (hin : ∀ b ∈ given, ¬ b.Overruns) :
    Verdict given (ofSorted l d).outcome where
  overflow := fun ⟨b, hb, hover⟩ => absurd hover (hin b hb)
  overlap := by
    rintro - ⟨p, hp⟩
    obtain ⟨stop, start, hclash⟩ := h.exists_clash hp
    have hfirst := h.meetsFirst hclash
    refine ⟨stop, start, ?_, hfirst.1.lt, hfirst⟩
    exact Traced.outcome_bind_error (Block.coalesce_clash hclash) _
  accepted := by
    intro _ hapart
    have hordered := h.ordered hin (h.clash?_eq_none hapart)
    obtain ⟨joined, hjoined, hruns, hbyte⟩ := Block.coalesce_ok hordered
    refine ⟨⟨joined, d⟩, ?_, fun p u => ?_, hruns.maximalRuns⟩
    · rw [ofSorted, Traced.outcome_bind_ok hjoined]
      rfl
    · rw [hbyte]
      exact h.byteIn_eq_some hordered

theorem ofBlocks_overruns_or_sorted (given : List Block) (d : Diagnostics) :
    (∃ before b after, given = before ++ b :: after ∧ b.Overruns ∧ (∀ c ∈ before, ¬ c.Overruns) ∧
        ofBlocks given d = Traced.fail (.addressOverflow b.start b.bytes.size)) ∨
      ((∀ b ∈ given, ¬ b.Overruns) ∧
        ofBlocks given d = ofSorted ((given.filter Block.hasBytes).mergeSort Block.startsFirst) d) := by
  have hfound : ∀ b : Block, (decide (b.hasBytes = true ∧ decide (Address.last < b.stop) = true) = true) ↔
      b.Overruns := by
    intro b
    rw [decide_eq_true_eq, decide_eq_true_eq]
    exact Block.overruns_iff.symm
  unfold ofBlocks
  dsimp only
  split
  · rename_i b hfind
    have hfind : (given.filter Block.hasBytes).find? (fun b => decide (Address.last < b.stop)) = some b := hfind
    rw [List.find?_filter, List.find?_eq_some_iff_append] at hfind
    obtain ⟨hb, before, after, hgiven, hbefore⟩ := hfind
    refine .inl ⟨before, b, after, hgiven, (hfound b).1 hb, fun c hc hover => ?_, rfl⟩
    have hnot := hbefore c hc
    rw [(hfound c).2 hover] at hnot
    cases hnot
  · rename_i hfind
    have hfind : (given.filter Block.hasBytes).find? (fun b => decide (Address.last < b.stop)) = none := hfind
    refine .inr ⟨fun b hb hover => ?_, rfl⟩
    rw [List.find?_filter, List.find?_eq_none] at hfind
    exact hfind b hb ((hfound b).2 hover)

theorem verdict_ofBlocks (given : List Block) (d : Diagnostics) : Verdict given (ofBlocks given d).outcome := by
  rcases ofBlocks_overruns_or_sorted given d with ⟨before, b, after, hgiven, hb, hbefore, hfail⟩ | ⟨hin, hsorted⟩
  · have hmem : b ∈ given := by
      rw [hgiven]
      simp
    constructor
    · intro _
      exact ⟨before, b, after, hgiven, hb, hbefore, congrArg Traced.outcome hfail⟩
    · intro hin
      exact absurd hb (hin b hmem)
    · intro hin
      exact absurd hb (hin b hmem)
  · rw [hsorted]
    exact ofSorted_verdict (Block.arranges_mergeSort given) hin

theorem Verdict.same (h : Verdict given r) (h' : Verdict given' r') (hperm : given.Perm given') :
    SameVerdict r r' := by
  by_cases hover : ∃ b ∈ given, b.Overruns
  · have hover' : ∃ b ∈ given', b.Overruns := by
      obtain ⟨b, hb, hover⟩ := hover
      exact ⟨b, hperm.mem_iff.1 hb, hover⟩
    obtain ⟨-, b, -, -, -, -, rfl⟩ := h.overflow hover
    obtain ⟨-, b', -, -, -, -, rfl⟩ := h'.overflow hover'
    trivial
  · have hin : ∀ b ∈ given, ¬ b.Overruns := fun b hb hb' => hover ⟨b, hb, hb'⟩
    have hin' : ∀ b ∈ given', ¬ b.Overruns := fun b hb => hin b (hperm.mem_iff.2 hb)
    by_cases hshared : ∃ p, Shared given p
    · have hshared' : ∃ p, Shared given' p := by
        obtain ⟨p, hp⟩ := hshared
        exact ⟨p, hp.perm hperm⟩
      obtain ⟨stop, start, rfl, -, hfirst⟩ := h.overlap hin hshared
      obtain ⟨stop', start', rfl, -, hfirst'⟩ := h'.overlap hin' hshared'
      exact (hfirst.perm hperm).start_eq hfirst'
    · have hapart : ∀ p, ¬ Shared given p := fun p hp => hshared ⟨p, hp⟩
      have hapart' : ∀ p, ¬ Shared given' p := fun p hp => hapart p (hp.perm hperm.symm)
      obtain ⟨m, rfl, hbytes, hruns⟩ := h.accepted hin hapart
      obtain ⟨m', rfl, hbytes', hruns'⟩ := h'.accepted hin' hapart'
      have hsame : Block.byteIn m.blocks = Block.byteIn m'.blocks := by
        funext p
        apply Option.ext
        intro u
        rw [hbytes, hbytes']
        simp only [hperm.mem_iff]
      rw [hsame] at hruns
      exact hruns.unique hruns'

/-- The verdict depends neither on the order of the blocks nor on how a sort arranges blocks of equal start. -/
theorem ofBlocks_accepts_disjoint (given : List Block) (d : Diagnostics) :
    Verdict given (ofBlocks given d).outcome ∧
      (∀ given', given.Perm given' → SameVerdict (ofBlocks given d).outcome (ofBlocks given' d).outcome) ∧
      ∀ l, Arranges l given → (∀ b ∈ given, ¬ b.Overruns) →
        Verdict given (ofSorted l d).outcome ∧ SameVerdict (ofBlocks given d).outcome (ofSorted l d).outcome := by
  have hverdict := verdict_ofBlocks given d
  refine ⟨hverdict, fun given' hperm => hverdict.same (verdict_ofBlocks given' d) hperm, ?_⟩
  intro l hl hin
  have hsorted := ofSorted_verdict (d := d) hl hin
  exact ⟨hsorted, hverdict.same hsorted (.refl given)⟩

theorem ofBlocks_accepts_disjoint_shared :
    let given : List Block := [⟨25, ⟨#[1, 2, 3, 4, 5, 6, 7, 8, 9]⟩⟩, ⟨30, ⟨#[]⟩⟩, ⟨24, ⟨#[1, 2, 3, 4]⟩⟩]
    (∃ stop, (ofBlocks given {}).outcome = .error (.overlappingBlocks stop 25) ∧ 25 < stop) ∧
      SameVerdict (ofBlocks given {}).outcome (ofBlocks given.reverse {}).outcome := by
  intro given
  have hsorted : Arranges [⟨24, ⟨#[1, 2, 3, 4]⟩⟩, ⟨25, ⟨#[1, 2, 3, 4, 5, 6, 7, 8, 9]⟩⟩] given :=
    ⟨.swap _ _ [], by simp⟩
  have hfirst : MeetsFirst given 28 25 := hsorted.meetsFirst rfl
  obtain ⟨verdict, anyOrder, -⟩ := ofBlocks_accepts_disjoint given {}
  obtain ⟨stop, start, herror, hlt, hmeets⟩ := verdict.overlap (by decide) ⟨25, hfirst.1.shared⟩
  obtain rfl := hfirst.start_eq hmeets
  exact ⟨⟨stop, herror, hlt⟩, anyOrder _ (List.reverse_perm given).symm⟩

end ImageLayer

end LayeredMemory
