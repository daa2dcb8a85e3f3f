import LayeredMemory.Proofs.Image.Coalesce

namespace LayeredMemory.Block

open scoped List

variable {b c last : Block} {l l' : List Block} {p stop start : Nat}

def Shared (l : List Block) (p : Nat) : Prop :=
  ∃ b c rest, l.Perm (b :: c :: rest) ∧ b.Contains p ∧ c.Contains p

def Meets (l : List Block) (stop start : Nat) : Prop :=
  ∃ b c rest, l.Perm (b :: c :: rest) ∧ b.stop = stop ∧ b.Contains start ∧ c.start = start ∧ c.start < c.stop

def MeetsFirst (l : List Block) (stop start : Nat) : Prop :=
  Meets l stop start ∧ ∀ stop' start', Meets l stop' start' → start ≤ start'

theorem Shared.perm (hperm : l.Perm l') (h : Shared l p) : Shared l' p := by
  obtain ⟨b, c, rest, hl, hb, hc⟩ := h
  exact ⟨b, c, rest, hperm.symm.trans hl, hb, hc⟩

theorem Meets.perm (hperm : l.Perm l') (h : Meets l stop start) : Meets l' stop start := by
  obtain ⟨b, c, rest, hl, h⟩ := h
  exact ⟨b, c, rest, hperm.symm.trans hl, h⟩

theorem Meets.cons (h : Meets l stop start) (b : Block) : Meets (b :: l) stop start := by
  obtain ⟨c, d, rest, hl, h⟩ := h
  refine ⟨c, d, b :: rest, ?_, h⟩
  calc b :: l
    _ ~ b :: c :: d :: rest := hl.cons b
    _ ~ c :: b :: d :: rest := .swap c b _
    _ ~ c :: d :: b :: rest := (List.Perm.swap d b rest).cons c

theorem Meets.lt (h : Meets l stop start) : start < stop := by
  obtain ⟨b, c, rest, -, rfl, hb, -⟩ := h
  exact hb.2

theorem Meets.shared (h : Meets l stop start) : Shared l start := by
  obtain ⟨b, c, rest, hl, -, hb, rfl, hc⟩ := h
  exact ⟨b, c, rest, hl, hb, Nat.le_refl _, hc⟩

theorem Shared.meets (h : Shared l p) : ∃ stop start, Meets l stop start := by
  obtain ⟨b, c, rest, hl, ⟨hb, hb'⟩, hc, hc'⟩ := h
  rcases Nat.le_total b.start c.start with hbc | hcb
  · exact ⟨b.stop, c.start, b, c, rest, hl, rfl, ⟨hbc, by omega⟩, rfl, by omega⟩
  · exact ⟨c.stop, b.start, c, b, rest, hl.trans (.swap c b rest), rfl, ⟨hcb, by omega⟩, rfl, by omega⟩

theorem MeetsFirst.perm (hperm : l.Perm l') (h : MeetsFirst l stop start) : MeetsFirst l' stop start :=
  ⟨h.1.perm hperm, fun stop' start' h' => h.2 stop' start' (h'.perm hperm.symm)⟩

theorem MeetsFirst.start_eq {stop' start' : Nat} (h : MeetsFirst l stop start) (h' : MeetsFirst l stop' start') :
    start = start' :=
  Nat.le_antisymm (h.2 stop' start' h'.1) (h'.2 stop start h.1)

theorem not_meets_of_pairwise (h : l.Pairwise fun b c => b.stop ≤ c.start) : ¬ Meets l stop start := by
  rintro ⟨b, c, rest, hl, -, ⟨hb, hb'⟩, rfl, hc⟩
  have hapart : l.Pairwise fun b c => b.stop ≤ c.start ∨ c.stop ≤ b.start := h.imp .inl
  have hapart' := (hl.pairwise_iff fun {x y} hxy => hxy.symm).1 hapart
  have hbc := (List.pairwise_cons.1 hapart').1 c (by simp)
  omega

def clash? : List Block → Option (Nat × Nat)
  | b :: c :: rest => if c.start < b.stop then some (b.stop, c.start) else clash? (c :: rest)
  | _ => none

/-- A run that is being joined ends like the last block in it, so it fails where the blocks themselves clash. -/
theorem joinFrom_clash (hlast : last.stop = b.stop) (h : clash? (b :: l) = some (stop, start)) :
    (joinFrom last l).outcome = .error (.overlappingBlocks stop start) := by
  induction l generalizing last b with
  | nil => cases h
  | cons c rest ih =>
    rw [clash?] at h
    rw [joinFrom, hlast]
    split at h
    · rename_i hover
      obtain ⟨rfl, rfl⟩ := Prod.mk.inj (Option.some.inj h)
      rw [if_pos hover]
      rfl
    · rename_i hover
      rw [if_neg hover]
      split
      · rename_i htouch
        exact ih (stop_join (htouch.trans hlast.symm)) h
      · rw [Traced.outcome_bind_error (ih rfl h)]

theorem coalesce_clash (h : clash? l = some (stop, start)) :
    (coalesce l).outcome = .error (.overlappingBlocks stop start) := by
  cases l with
  | nil => cases h
  | cons b rest => exact joinFrom_clash rfl h

theorem apart_of_clash?_none (hsorted : l.Pairwise fun b c => b.start ≤ c.start) (h : clash? l = none) :
    l.Pairwise fun b c => b.stop ≤ c.start := by
  fun_induction clash? l with
  | case1 b c rest hover => cases h
  | case2 b c rest hover ih =>
    obtain ⟨-, hrest⟩ := List.pairwise_cons.1 hsorted
    have hnext := (List.pairwise_cons.1 hrest).1
    refine List.pairwise_cons.2 ⟨?_, ih hrest h⟩
    intro d hd
    rcases List.mem_cons.1 hd with rfl | hd
    · omega
    · have := hnext d hd
      omega
  | case3 l hshort =>
    match l with
    | [] => exact .nil
    | [b] => exact List.pairwise_singleton _ b
    | b :: c :: rest => exact absurd rfl (hshort b c rest)

theorem meets_of_clash? (hsorted : l.Pairwise fun b c => b.start ≤ c.start)
    (hne : ∀ b ∈ l, b.start < b.stop) (h : clash? l = some (stop, start)) : Meets l stop start := by
  fun_induction clash? l with
  | case1 b c rest hover =>
    obtain ⟨rfl, rfl⟩ := Prod.mk.inj (Option.some.inj h)
    have hbc := (List.pairwise_cons.1 hsorted).1 c (by simp)
    exact ⟨b, c, rest, .refl _, rfl, ⟨hbc, hover⟩, rfl, hne c (by simp)⟩
  | case2 b c rest hover ih =>
    exact (ih (List.pairwise_cons.1 hsorted).2 (fun d hd => hne d (.tail _ hd)) h).cons b
  | case3 l hshort => cases h

theorem apart_below_clash (hsorted : l.Pairwise fun b c => b.start ≤ c.start)
    (h : clash? l = some (stop, start)) :
    (l.filter fun b => b.start < start).Pairwise fun b c => b.stop ≤ c.start := by
  fun_induction clash? l with
  | case1 b c rest hover =>
    obtain ⟨-, rfl⟩ := Prod.mk.inj (Option.some.inj h)
    obtain ⟨-, hrest⟩ := List.pairwise_cons.1 hsorted
    have hbehind : (c :: rest).filter (fun d => d.start < c.start) = [] := by
      apply List.filter_eq_nil_iff.2
      intro d hd
      rcases List.mem_cons.1 hd with rfl | hd
      · simp
      · simpa using (List.pairwise_cons.1 hrest).1 d hd
    rw [List.filter_cons, hbehind]
    split
    · exact List.pairwise_singleton _ b
    · exact .nil
  | case2 b c rest hover ih =>
    obtain ⟨-, hrest⟩ := List.pairwise_cons.1 hsorted
    have hnext := (List.pairwise_cons.1 hrest).1
    rw [List.filter_cons]
    split
    · refine List.pairwise_cons.2 ⟨?_, ih hrest h⟩
      intro d hd
      rcases List.mem_cons.1 (List.mem_filter.1 hd).1 with rfl | hd
      · omega
      · have := hnext d hd
        omega
    · exact ih hrest h
  | case3 l hshort => cases h

theorem meetsFirst_of_clash? (hsorted : l.Pairwise fun b c => b.start ≤ c.start)
    (hne : ∀ b ∈ l, b.start < b.stop) (h : clash? l = some (stop, start)) : MeetsFirst l stop start := by
  refine ⟨meets_of_clash? hsorted hne h, ?_⟩
  rintro stop' start' ⟨b, c, rest, hl, hstop, hb, rfl, hc⟩
  apply Nat.le_of_not_lt
  intro hlt
  -- both blocks of a lower clash would be among those that do not overlap
  apply not_meets_of_pairwise (apart_below_clash hsorted h)
  refine ⟨b, c, rest.filter fun d => d.start < start, ?_, hstop, hb, rfl, hc⟩
  have hbelow : b.start < start := Nat.lt_of_le_of_lt hb.1 hlt
  have hfiltered := hl.filter fun d => decide (d.start < start)
  rwa [List.filter_cons_of_pos (by simpa using hbelow), List.filter_cons_of_pos (by simpa using hlt)] at hfiltered

end LayeredMemory.Block
