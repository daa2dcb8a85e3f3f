import LayeredMemory.Layer.Block

namespace LayeredMemory.Block

variable {b c : Block} {l before after : List Block} {k p a : Nat}

def at? (b : Block) (p : Nat) : Option UInt8 :=
  if b.start ≤ p then b.bytes.data[p - b.start]? else none

def Contains (b : Block) (p : Nat) : Prop := b.start ≤ p ∧ p < b.stop

instance (b : Block) (p : Nat) : Decidable (b.Contains p) :=
  inferInstanceAs (Decidable (_ ∧ _))

def byteIn (l : List Block) (p : Nat) : Option UInt8 := l.findSome? (·.at? p)

structure Ordered (gap : Nat) (l : List Block) : Prop where
  nonempty : ∀ b ∈ l, b.start < b.stop
  ascending : l.Pairwise (fun b c => b.stop + gap ≤ c.start)
  bounded : ∀ b ∈ l, b.stop ≤ Address.last

theorem isSome_at? : (b.at? p).isSome ↔ b.Contains p := by
  unfold at? Contains stop
  have hsize : b.bytes.data.size = b.bytes.size := rfl
  by_cases h : b.start ≤ p
  · rw [if_pos h, isSome_getElem?]
    omega
  · rw [if_neg h]
    simp [h]

theorem at?_eq_none : b.at? p = none ↔ ¬ b.Contains p := by
  rw [← isSome_at?, Option.not_isSome_iff_eq_none]

theorem byteIn_cons (b : Block) (l : List Block) (p : Nat) :
    byteIn (b :: l) p = (b.at? p).or (byteIn l p) := by
  rw [byteIn, List.findSome?_cons]
  cases b.at? p with
  | none => rfl
  | some u => rfl

theorem byteIn_append (l m : List Block) (p : Nat) : byteIn (l ++ m) p = (byteIn l p).or (byteIn m p) :=
  List.findSome?_append

theorem isSome_byteIn : (byteIn l p).isSome ↔ ∃ b ∈ l, b.Contains p := by
  rw [byteIn, List.findSome?_isSome_iff]
  simp only [isSome_at?]

theorem byteIn_eq_none : byteIn l p = none ↔ ∀ b ∈ l, ¬ b.Contains p := by
  rw [byteIn, List.findSome?_eq_none_iff]
  simp only [at?_eq_none]

theorem exists_of_byteIn {u : UInt8} (h : byteIn l p = some u) : ∃ b ∈ l, b.at? p = some u :=
  List.exists_of_findSome?_eq_some h

namespace Ordered

theorem nil : Ordered k [] := ⟨by simp, .nil, by simp⟩

theorem tail (h : Ordered k (b :: l)) : Ordered k l :=
  ⟨fun c hc => h.nonempty c (.tail _ hc), (List.pairwise_cons.1 h.ascending).2,
    fun c hc => h.bounded c (.tail _ hc)⟩

theorem before_tail (h : Ordered k (b :: l)) : ∀ c ∈ l, b.stop + k ≤ c.start :=
  (List.pairwise_cons.1 h.ascending).1

theorem cons (hne : b.start < b.stop) (hlast : b.stop ≤ Address.last)
    (hnext : ∀ c ∈ l, b.stop + k ≤ c.start) (h : Ordered k l) : Ordered k (b :: l) := by
  constructor
  · intro c hc
    rcases List.mem_cons.1 hc with rfl | hc
    · exact hne
    · exact h.nonempty c hc
  · exact List.pairwise_cons.2 ⟨hnext, h.ascending⟩
  · intro c hc
    rcases List.mem_cons.1 hc with rfl | hc
    · exact hlast
    · exact h.bounded c hc

theorem loosen (h : Ordered k l) : Ordered 0 l :=
  ⟨h.nonempty, h.ascending.imp fun hbc => by omega, h.bounded⟩

theorem eq_or_apart (h : Ordered k l) (hb : b ∈ l) (hc : c ∈ l) :
    b = c ∨ b.stop + k ≤ c.start ∨ c.stop + k ≤ b.start := by
  induction l with
  | nil => cases hb
  | cons d l ih =>
    rcases List.mem_cons.1 hb with rfl | hbl
    · rcases List.mem_cons.1 hc with rfl | hcl
      · exact .inl rfl
      · exact .inr (.inl (h.before_tail c hcl))
    · rcases List.mem_cons.1 hc with rfl | hcl
      · exact .inr (.inr (h.before_tail b hbl))
      · exact ih h.tail hbl hcl

theorem eq_of_contains (h : Ordered k l) (hb : b ∈ l) (hc : c ∈ l) (hbp : b.Contains p) (hcp : c.Contains p) :
    b = c := by
  have hlo := hbp.1
  have hhi := hbp.2
  have hlo' := hcp.1
  have hhi' := hcp.2
  apply (h.eq_or_apart hb hc).resolve_right
  omega

theorem byteIn_of_mem (h : Ordered k l) (hb : b ∈ l) (hp : b.Contains p) : byteIn l p = b.at? p := by
  obtain ⟨u, hu⟩ := Option.isSome_iff_exists.1 (isSome_byteIn.2 ⟨b, hb, hp⟩)
  obtain ⟨c, hc, hcu⟩ := exists_of_byteIn hu
  have hcp : c.Contains p := isSome_at?.1 (by rw [hcu]; rfl)
  rw [hu, h.eq_of_contains hb hc hp hcp, hcu]

theorem byteIn_perm (h : Ordered k l) {m : List Block} (hperm : l.Perm m) : byteIn m p = byteIn l p := by
  cases hm : byteIn m p with
  | none =>
    symm
    apply byteIn_eq_none.2
    intro b hb
    exact byteIn_eq_none.1 hm b (hperm.mem_iff.1 hb)
  | some u =>
    obtain ⟨b, hb, hu⟩ := exists_of_byteIn hm
    have hp : b.Contains p := isSome_at?.1 (by rw [hu]; rfl)
    rw [h.byteIn_of_mem (hperm.mem_iff.2 hb) hp, hu]

theorem byteIn_between (h : Ordered k (before ++ c :: after)) :
    byteIn (before ++ c :: after) p = if c.Contains p then c.at? p else byteIn (before ++ after) p := by
  by_cases hp : c.Contains p
  · rw [if_pos hp]
    exact h.byteIn_of_mem (by simp) hp
  · rw [if_neg hp, byteIn_append, byteIn_append, byteIn_cons, at?_eq_none.2 hp, Option.none_or]

theorem between (h : Ordered 0 (before ++ after)) (hne : c.start < c.stop) (hlast : c.stop ≤ Address.last)
    (hbefore : ∀ b ∈ before, b.stop ≤ c.start) (hafter : ∀ b ∈ after, c.stop ≤ b.start) :
    Ordered 0 (before ++ c :: after) := by
  have hmem : ∀ {b}, b ∈ before ++ c :: after → b = c ∨ b ∈ before ++ after := by
    intro b hb
    simp only [List.mem_append, List.mem_cons] at hb ⊢
    exact or_left_comm.1 hb
  constructor
  · intro b hb
    rcases hmem hb with rfl | hb
    · exact hne
    · exact h.nonempty b hb
  · obtain ⟨hleft, hright, hcross⟩ := List.pairwise_append.1 h.ascending
    apply List.pairwise_append.2
    refine ⟨hleft, List.pairwise_cons.2 ⟨hafter, hright⟩, ?_⟩
    intro b hb d hd
    rcases List.mem_cons.1 hd with rfl | hd
    · exact hbefore b hb
    · exact hcross b hb d hd
  · intro b hb
    rcases hmem hb with rfl | hb
    · exact hlast
    · exact h.bounded b hb

theorem without (h : Ordered k (before ++ c :: after)) :
    Ordered k (before ++ after) ∧ (∀ b ∈ before, b.stop ≤ c.start) ∧ ∀ b ∈ after, c.stop ≤ b.start := by
  have hsub : (before ++ after).Sublist (before ++ c :: after) :=
    (List.Sublist.refl before).append (List.sublist_cons_self c after)
  obtain ⟨-, hright, hcross⟩ := List.pairwise_append.1 h.ascending
  refine ⟨⟨fun b hb => h.nonempty b (hsub.subset hb), h.ascending.sublist hsub,
    fun b hb => h.bounded b (hsub.subset hb)⟩, ?_, ?_⟩
  · intro b hb
    have := hcross b hb c (by simp)
    omega
  · intro b hb
    have := (List.pairwise_cons.1 hright).1 b hb
    omega

theorem le_from (h : Ordered k (before ++ b :: after)) : ∀ c ∈ b :: after, b.start ≤ c.start ∧ b.stop ≤ c.stop := by
  intro c hc
  rcases List.mem_cons.1 hc with rfl | hc
  · exact ⟨Nat.le_refl _, Nat.le_refl _⟩
  · have hne := h.nonempty b (by simp)
    have hstart := h.without.2.2 c hc
    have hstop : c.start ≤ c.stop := Nat.le_add_right _ _
    omega

theorem replace (h : Ordered 0 (before ++ b :: after)) (hstart : c.start = b.start) (hstop : c.stop = b.stop) :
    Ordered 0 (before ++ c :: after) ∧ ∀ p, byteIn (before ++ c :: after) p =
      if b.Contains p then c.at? p else byteIn (before ++ b :: after) p := by
  obtain ⟨hrest, hbefore, hafter⟩ := h.without
  have hne := h.nonempty b (by simp)
  have hlast := h.bounded b (by simp)
  rw [← hstart] at hbefore hne
  rw [← hstop] at hafter hlast hne
  have hordered := hrest.between hne hlast hbefore hafter
  refine ⟨hordered, fun p => ?_⟩
  have hcontains : c.Contains p ↔ b.Contains p := by
    rw [Contains, Contains, hstart, hstop]
  rw [hordered.byteIn_between, h.byteIn_between]
  by_cases hp : b.Contains p
  · rw [if_pos (hcontains.2 hp), if_pos hp]
  · rw [if_neg (fun hc => hp (hcontains.1 hc)), if_neg hp, if_neg hp]

end Ordered

theorem find?_cons (b : Block) (l : List Block) (a : Nat) :
    find? (b :: l) a = if b.stop ≤ a then find? l a else if b.start ≤ a then some b else none := by
  rw [find?, List.dropWhile_cons]
  simp only [endsBy, decide_eq_true_eq]
  split
  · rfl
  · simp [Option.filter]

theorem find?_eq_some (h : find? l a = some b) : b ∈ l ∧ b.Contains a := by
  induction l with
  | nil => cases h
  | cons c l ih =>
    rw [find?_cons] at h
    split at h
    · obtain ⟨hb, hp⟩ := ih h
      exact ⟨.tail _ hb, hp⟩
    · split at h
      · obtain rfl := Option.some.inj h
        exact ⟨.head _, by assumption, by omega⟩
      · cases h

theorem Ordered.find?_eq_none (h : Ordered k l) (hnone : find? l a = none) : byteIn l a = none := by
  induction l with
  | nil => rfl
  | cons c l ih =>
    rw [find?_cons] at hnone
    split at hnone
    · rename_i hstop
      have hc : ¬ c.Contains a := fun hp => Nat.not_lt.2 hstop hp.2
      rw [byteIn_cons, at?_eq_none.2 hc, ih h.tail hnone]
      rfl
    · split at hnone
      · cases hnone
      · rename_i hstart
        apply byteIn_eq_none.2
        intro d hd hp
        have hlo := hp.1
        rcases List.mem_cons.1 hd with rfl | hd
        · exact hstart hlo
        · have := h.before_tail d hd
          have := h.nonempty c (.head _)
          omega

end LayeredMemory.Block
