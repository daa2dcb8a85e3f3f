import LayeredMemory.Proofs.Memory.Answers
import LayeredMemory.Proofs.Sparse.Mentions

namespace LayeredMemory

def Contents.names (held : Contents) (p : Nat) : List String := ((held p).map (·.source.names)).getD []

theorem Contents.mem_names {held : Contents} {p : Nat} {name : String} :
    name ∈ held.names p ↔ ∃ b, held p = some b ∧ name ∈ b.source.names := by
  cases hp : held p with
  | none => simp [names, hp]
  | some b => simp [names, hp]

theorem Contents.names_onto_of_isSome {top base : Contents} {p : Nat} (h : (top p).isSome) :
    (top.onto base).names p = top.names p := by
  rw [names, onto_of_isSome h, names]

theorem Contents.names_onto_of_none {top base : Contents} {p : Nat} (h : top p = none) :
    (top.onto base).names p = base.names p := by
  rw [names, onto_of_none h, names]

def MentionsFrom (load : Nat → Width → Traced Fault (Option Expr)) (held : Contents) : Prop :=
  ∀ a w e, (load a w).outcome = .ok (some e) →
    ∀ name, name ∈ e.names ↔ ∃ p, a ≤ p ∧ p < a + w.bytes ∧ name ∈ held.names p

theorem MentionsFrom.congr {load : Nat → Width → Traced Fault (Option Expr)} {held held' : Contents} {a : Nat}
    {w : Width} {e : Expr} {name : String} (h : MentionsFrom load held) (hload : (load a w).outcome = .ok (some e))
    (heq : ∀ p, a ≤ p → p < a + w.bytes → held'.names p = held.names p) :
    name ∈ e.names ↔ ∃ p, a ≤ p ∧ p < a + w.bytes ∧ name ∈ held'.names p := by
  rw [h a w e hload]
  apply exists_congr
  intro p
  apply and_congr_right
  intro hlo
  apply and_congr_right
  intro hhi
  rw [heq p hlo hhi]

theorem SparseLayer.mentionsFrom {m : SparseLayer} (h : m.Valid) : MentionsFrom m.load m.held := by
  intro a w e hload name
  obtain ⟨hw, hlast⟩ := Memory.range_of_load (m := .sparse m) h hload
  rw [mem_names_load h hw hlast hload]
  constructor
  · rintro ⟨entry, hentry, hover, hname⟩
    have hne := h.nonempty entry hentry
    obtain ⟨hafter, hbefore⟩ := hover
    have hcontains : entry.Contains (max a entry.start) := ⟨Nat.le_max_right .., by omega⟩
    refine ⟨max a entry.start, Nat.le_max_left .., by omega, Contents.mem_names.2 ?_⟩
    exact ⟨_, h.held_of_mem hentry hcontains, hname⟩
  · rintro ⟨p, hlo, hhi, hname⟩
    obtain ⟨b, hb, hname⟩ := Contents.mem_names.1 hname
    obtain ⟨entry, hentry, hcontains⟩ := Entry.isSome_held.1 (Option.isSome_of_eq_some hb)
    obtain rfl : entry.byteAt p = b := Option.some.inj ((h.held_of_mem hentry hcontains).symm.trans hb)
    obtain ⟨hstart, hstop⟩ := hcontains
    exact ⟨entry, hentry, ⟨by omega, by omega⟩, hname⟩

theorem ImageLayer.names_held (m : ImageLayer) (p : Nat) : m.held.names p = [] := by
  cases hp : Block.byteIn m.blocks p with
  | none => simp [Contents.names, held, hp]
  | some u => simp [Contents.names, held, hp, ValueByte.ofByte]

theorem ImageLayer.mentionsFrom {m : ImageLayer} (h : m.Valid) : MentionsFrom m.load m.held := by
  intro a w e hload name
  obtain ⟨hw, hlast⟩ := Memory.range_of_load (m := .image m) h hload
  obtain ⟨c, rfl⟩ : ∃ c, e = .const c := by
    rw [outcome_load hw hlast] at hload
    split at hload
    · cases hload
    · split at hload
      · cases hload
      · exact ⟨_, (Option.some.inj (Except.ok.inj hload)).symm⟩
  simp [names_held]

namespace Memory

variable {load base top : Loads} {held low high : Contents} {a : Nat} {w : Width} {e : Expr} {name : String}
  {gaps rest : IntervalSet Nat}

theorem mem_names_readPieces (h : MentionsFrom load held) {l : List (Interval Nat)} {pieces : List Piece}
    (hread : (readPieces load l).outcome = .ok (some pieces)) :
    (∃ q ∈ pieces, name ∈ q.2.names) ↔ ∃ p, Covers l p ∧ name ∈ held.names p := by
  induction l generalizing pieces with
  | nil =>
    obtain rfl := Option.some.inj (Except.ok.inj hread)
    simp
  | cons i l ih =>
    rw [readPieces, Traced.outcome_bind_eq_ok] at hread
    obtain ⟨w, hwidth, hread⟩ := hread
    obtain ⟨r, hload, hread⟩ := Traced.outcome_bind_eq_ok.1 hread
    have hspan : i.lo + w.bytes = i.hi := by
      rw [Address.bytes_of_widthOf hwidth, Nat.add_sub_of_le i.lo_le_hi]
    cases r with
    | none => cases hread
    | some e =>
      obtain ⟨t, hrest, hread⟩ := Traced.outcome_bind_eq_ok.1 hread
      obtain ⟨tail, rfl, rfl⟩ := Option.map_eq_some_iff.1 (Except.ok.inj hread)
      have he := h i.lo w e hload name
      rw [hspan] at he
      simp only [List.mem_cons, or_and_right, exists_or, exists_eq_left, ih hrest, he, Covers.cons,
        Interval.mem_iff, and_assoc]

theorem mem_names_readSplit (hbase : LoadsFrom base low) (htop : LoadsFrom top high) (hlow : MentionsFrom base low)
    (hhigh : MentionsFrom top high) (hlast : a + w.bytes ≤ Address.last)
    (hgaps : ∀ p, p ∈ gaps ↔ (a ≤ p ∧ p < a + w.bytes) ∧ high p = none)
    (hrest : ∀ p, p ∈ rest ↔ (a ≤ p ∧ p < a + w.bytes) ∧ p ∉ gaps)
    (hread : (readSplit base top gaps rest a w).outcome = .ok (some e)) :
    name ∈ e.names ↔ (∃ p, p ∈ gaps ∧ name ∈ low.names p) ∨ ∃ p, p ∈ rest ∧ name ∈ high.names p := by
  obtain ⟨r, hr, -, hlower⟩ := readPieces_within hbase hlast fun p hp => ((hgaps p).1 hp).1
  obtain ⟨t, ht, -, hupper⟩ := readPieces_within htop hlast fun p hp => ((hrest p).1 hp).1
  rw [readSplit, Traced.outcome_bind_ok (Traced.outcome_record _), Traced.outcome_bind_ok hr] at hread
  cases r with
  | none => cases hread
  | some lower =>
    dsimp only at hread
    rw [Traced.outcome_bind_ok ht] at hread
    cases t with
    | none => cases hread
    | some upper =>
      have htiles := tiles_merge (hlower lower rfl) (hupper upper rfl) (fun p hp => ((hgaps p).1 hp).1) hrest
      have hmem : ∀ q, q ∈ lower.merge upper Piece.startsFirst ↔ q ∈ lower ∨ q ∈ upper := by
        intro q
        rw [(List.merge_perm_append _).mem_iff, List.mem_append]
      rw [Expr.listing_names.mem_compose htiles hread]
      simp only [hmem, or_and_right, exists_or, mem_names_readPieces hlow hr, mem_names_readPieces hhigh ht]
      exact Iff.rfl

theorem mem_names_readThrough (hbase : LoadsFrom base low) (htop : LoadsFrom top high)
    (hlow : MentionsFrom base low) (hhigh : MentionsFrom top high) (hlast : a + w.bytes ≤ Address.last)
    (hgaps : ∀ p, p ∈ gaps ↔ p ∈ Address.range a w ∧ high p = none)
    (hread : (readThrough base top gaps a w).outcome = .ok (some e)) :
    name ∈ e.names ↔ ∃ p, a ≤ p ∧ p < a + w.bytes ∧ name ∈ (high.onto low).names p := by
  have hin : ∀ p, p ∈ gaps → (high.onto low).names p = low.names p := fun p hp =>
    Contents.names_onto_of_none ((hgaps p).1 hp).2
  have hout : ∀ p, a ≤ p → p < a + w.bytes → p ∉ gaps → (high.onto low).names p = high.names p := by
    intro p hlo hhi hp
    apply Contents.names_onto_of_isSome
    exact Option.isSome_iff_ne_none.2 fun hnone => hp ((hgaps p).2 ⟨⟨hlo, hhi⟩, hnone⟩)
  unfold readThrough at hread
  by_cases hempty : gaps.isEmpty
  · rw [if_pos hempty] at hread
    exact hhigh.congr hread fun p hlo hhi => hout p hlo hhi (IntervalSet.isEmpty_iff.1 hempty p)
  · rw [if_neg hempty, Address.requested_ok hlast, Traced.outcome_bind_ok (Traced.outcome_liftM _)] at hread
    by_cases hwhole : gaps = .ofInterval (Address.range a w)
    · rw [if_pos hwhole] at hread
      apply hlow.congr hread
      intro p hlo hhi
      apply hin
      rw [hwhole, IntervalSet.mem_ofInterval]
      exact ⟨hlo, hhi⟩
    · rw [if_neg hwhole] at hread
      have hrest : ∀ p, p ∈ (IntervalSet.ofInterval (Address.range a w)).difference gaps ↔
          (a ≤ p ∧ p < a + w.bytes) ∧ p ∉ gaps := by
        intro p
        rw [IntervalSet.mem_difference, IntervalSet.mem_ofInterval]
        exact Iff.rfl
      rw [mem_names_readSplit hbase htop hlow hhigh hlast hgaps hrest hread]
      constructor
      · rintro (⟨p, hp, hname⟩ | ⟨p, hp, hname⟩)
        · obtain ⟨hlo, hhi⟩ := ((hgaps p).1 hp).1
          exact ⟨p, hlo, hhi, hin p hp ▸ hname⟩
        · obtain ⟨⟨hlo, hhi⟩, hgap⟩ := (hrest p).1 hp
          exact ⟨p, hlo, hhi, hout p hlo hhi hgap ▸ hname⟩
      · rintro ⟨p, hlo, hhi, hname⟩
        by_cases hp : p ∈ gaps
        · exact .inl ⟨p, hp, hin p hp ▸ hname⟩
        · exact .inr ⟨p, (hrest p).2 ⟨⟨hlo, hhi⟩, hp⟩, hout p hlo hhi hp ▸ hname⟩

theorem mentionsFrom {m : Memory Empty} (h : m.Valid) : MentionsFrom m.load m.held := by
  induction m with
  | sparse m => exact SparseLayer.mentionsFrom h
  | image m => exact ImageLayer.mentionsFrom h
  | device d => cases d
  | overlay base top ihb iht =>
    intro a w e hload name
    obtain ⟨-, hlast⟩ := range_of_load h hload
    obtain ⟨gaps, -, hgaps, hmem, -, -⟩ := missing_overlay (answers h.1) (answers h.2) hlast
    rw [load, hgaps, Traced.outcome_bind_ok (Traced.outcome_liftM _)] at hload
    exact mem_names_readThrough (answers h.1).load (answers h.2).load (ihb h.1) (iht h.2) hlast hmem hload

end Memory

end LayeredMemory
