import LayeredMemory.Proofs.Memory.ReadThrough
import LayeredMemory.Proofs.Sparse.Answers

namespace LayeredMemory

def Address.Apart (a : Nat) (w : Width) (b : Nat) (u : Width) : Prop := ∀ p, ¬ (p ∈ range a w ∧ p ∈ range b u)

namespace Address.Apart

variable {a b c : Nat} {w u t : Width}

theorem le_or_le (h : Apart a w b u) (hw : 0 < w.bytes) (hu : 0 < u.bytes) :
    b + u.bytes ≤ a ∨ a + w.bytes ≤ b := by
  apply Classical.not_not.1
  intro hmeet
  apply h (max a b)
  simp only [range, Interval.mem_iff]
  omega

theorem within (h : Apart a w b u) (hlo : b ≤ c) (hhi : c + t.bytes ≤ b + u.bytes) : Apart a w c t := by
  rintro p ⟨hp, hlo', hhi'⟩
  exact h p ⟨hp, Nat.le_trans hlo hlo', Nat.lt_of_lt_of_le hhi' hhi⟩

end Address.Apart

namespace Entry

variable {l : List Entry} {lo hi lo' hi' a : Nat} {v : Expr} {w : Width}

theorem restrict_restrict (hlo : lo' ≤ lo) (hlt : lo < hi) (hhi : hi ≤ hi') :
    restrict lo hi (restrict lo' hi' l) = restrict lo hi l := by
  induction l with
  | nil => rfl
  | cons e l ih =>
    by_cases houter : e.Overlaps lo' hi'
    · have hlt' : lo' < hi' := by omega
      have hsame : (e.clip lo' hi').Overlaps lo hi ↔ e.Overlaps lo hi := by
        rw [Overlaps, start_clip _ houter.1, stop_clip houter hlt', Overlaps]
        omega
      rw [restrict_cons_of_overlaps houter]
      by_cases hinner : e.Overlaps lo hi
      · rw [restrict_cons_of_overlaps (hsame.2 hinner), restrict_cons_of_overlaps hinner, ih,
          clip_clip houter hlt' (hsame.2 hinner) hlt, Nat.max_eq_right hlo, Nat.min_eq_right hhi]
      · rw [restrict_cons_of_not (fun hover => hinner (hsame.1 hover)), restrict_cons_of_not hinner, ih]
    · have hinner : ¬ e.Overlaps lo hi := by
        rintro ⟨hstop, hstart⟩
        exact houter ⟨by omega, by omega⟩
      rw [restrict_cons_of_not houter, restrict_cons_of_not hinner, ih]

theorem restrict_restrict_apart (h : Ordered l) (hlt : ∀ e ∈ l, e.Overlaps lo' hi' → lo' < hi')
    (hapart : hi ≤ lo' ∨ hi' ≤ lo) : restrict lo hi (restrict lo' hi' l) = [] := by
  apply restrict_eq_nil
  rintro e he ⟨hstop, hstart⟩
  obtain ⟨hlo, -, hhi⟩ := bounds_of_mem_restrict h hlt he
  omega

theorem restrict_overwrite_apart (h : Ordered l) (hlt : lo < hi) (hlast : hi ≤ Address.last)
    (hapart : hi ≤ a ∨ a + w.bytes ≤ lo) :
    restrict lo hi (overwrite l a (a + w.bytes) v w) = restrict lo hi l := by
  have hnew : ¬ (Entry.mk a (.full v w)).Overlaps lo hi := by
    rintro ⟨hstop, hstart⟩
    rw [stop_full] at hstop
    change a < hi at hstart
    omega
  have hbelow : ∀ e ∈ l, e.Overlaps 0 a → 0 < a := fun e _ hover => lt_of_overlaps_zero hover
  have habove : ∀ e ∈ l, e.Overlaps (a + w.bytes) Address.last → a + w.bytes < Address.last :=
    fun e he hover => h.lt_of_overlaps_last he hover
  rw [overwrite, restrict_append, restrict_cons_of_not hnew]
  rcases hapart with hbefore | hbehind
  · rw [restrict_restrict (Nat.zero_le lo) hlt hbefore, restrict_restrict_apart h habove (.inl (by omega)),
      List.append_nil]
  · rw [restrict_restrict_apart h hbelow (.inr (by omega)), restrict_restrict hbehind hlt hlast, List.nil_append]

theorem restrict_overwrite_self (h : Ordered l) (hw : 0 < w.bytes) :
    restrict a (a + w.bytes) (overwrite l a (a + w.bytes) v w) = [⟨a, .full v w⟩] := by
  have hstop := stop_full a v w
  have hnew : (Entry.mk a (.full v w)).Overlaps a (a + w.bytes) :=
    ⟨by rw [hstop]; omega, Nat.lt_add_of_pos_right hw⟩
  rw [overwrite, restrict_append, restrict_cons_of_overlaps hnew,
    restrict_restrict_apart h (fun e _ hover => lt_of_overlaps_zero hover) (.inr (Nat.le_refl a)),
    restrict_restrict_apart h (fun e he hover => h.lt_of_overlaps_last he hover) (.inl (Nat.le_refl _)),
    clip_self hnew (Nat.lt_add_of_pos_right hw) (Nat.le_refl a) (Nat.le_of_eq hstop), List.nil_append]

theorem Ordered.restrict_of_mem (h : Ordered l) {e : Entry} (he : e ∈ l) : restrict e.start e.stop l = [e] := by
  have hne := h.nonempty e he
  obtain ⟨before, after, rfl⟩ := List.append_of_mem he
  obtain ⟨-, hright, hcross⟩ := List.pairwise_append.1 h.ascending
  have hbefore : restrict e.start e.stop before = [] := by
    apply restrict_eq_nil
    intro f hf hover
    exact Nat.not_lt.2 (hcross f hf e (by simp)) hover.1
  have hafter : restrict e.start e.stop after = [] := by
    apply restrict_eq_nil
    intro f hf hover
    exact Nat.not_lt.2 ((List.pairwise_cons.1 hright).1 f hf) hover.2
  have hself : e.Overlaps e.start e.stop := ⟨hne, hne⟩
  rw [restrict_append, hbefore, List.nil_append, restrict_cons_of_overlaps hself, hafter,
    clip_self hself hne (Nat.le_refl _) (Nat.le_refl _)]

end Entry

namespace SparseLayer

variable {m n : SparseLayer} {a b : Nat} {v : Expr} {w u : Width}

theorem present_congr (h : Entry.restrict a (a + w.bytes) m.entries = Entry.restrict a (a + w.bytes) n.entries) :
    m.held.Present a w ↔ n.held.Present a w := by
  apply Memory.present_congr
  intro p hlo hhi
  have hsame : Entry.held _ p = Entry.held _ p := congrFun (congrArg Entry.held h) p
  rw [Entry.held_restrict, Entry.held_restrict, if_pos ⟨hlo, hhi⟩, if_pos ⟨hlo, hhi⟩] at hsame
  exact hsame

theorem load_congr (hm : m.Valid) (hn : n.Valid) (hw : 0 < w.bytes) (hlast : a + w.bytes ≤ Address.last)
    (h : Entry.restrict a (a + w.bytes) m.entries = Entry.restrict a (a + w.bytes) n.entries) :
    (m.load a w).outcome = (n.load a w).outcome := by
  by_cases hpresent : m.held.Present a w
  · rw [outcome_load_present hm hw hlast hpresent, outcome_load_present hn hw hlast ((present_congr h).1 hpresent), h]
  · rw [load_absent hm hw hlast hpresent, load_absent hn hw hlast (fun hn => hpresent ((present_congr h).2 hn))]

theorem store_cases (h : m.Valid) (a : Nat) (v : Expr) (w : Width) :
    (m.store a v w).state = m ∨ 0 < w.bytes ∧ a + w.bytes ≤ Address.last ∧
      (m.store a v w).state = { m with entries := Entry.overwrite m.entries a (a + w.bytes) v w } := by
  by_cases hw : 0 < w.bytes
  · by_cases hlast : a + w.bytes ≤ Address.last
    · exact .inr ⟨hw, hlast, (store_eq h hw hlast v).1⟩
    · exact .inl (store_overflow hw (Nat.lt_of_not_le hlast) v).1
  · exact .inl (store_zero (by omega) a v).1

theorem load_store_apart (h : m.Valid) (hapart : Address.Apart a w b u) (hlast : b + u.bytes ≤ Address.last) :
    ((m.store a v w).state.load b u).outcome = (m.load b u).outcome := by
  rcases store_cases h a v w with hsame | ⟨hw, hfit, hstate⟩
  · rw [hsame]
  · by_cases hu : 0 < u.bytes
    · obtain ⟨-, hvalid, -⟩ := store_ok h (.inr hfit) v
      apply load_congr hvalid h hu hlast
      rw [hstate]
      exact Entry.restrict_overwrite_apart h (Nat.lt_add_of_pos_right hu) hlast (hapart.le_or_le hw hu)
    · have hzero : u.bytes = 0 := by omega
      rw [load_zero _ hzero, load_zero _ hzero]

theorem compose_full (a : Nat) (v : Expr) (w : Width) :
    compose a w [(Entry.mk a (.full v w)).toPiece] = .ok (some (v.resized w)) := by
  have hpiece : (Entry.mk a (.full v w)).toPiece = (a, v.resized w) := rfl
  have hplace : Piece.place a w (a, v.resized w) = .ok (v.resized w) := by
    rw [Piece.place, if_neg (Nat.lt_irrefl a), if_pos rfl]
  rw [hpiece, compose, List.mapM_cons, hplace]
  rfl

theorem load_store_self (h : m.Valid) (hw : 0 < w.bytes) (hlast : a + w.bytes ≤ Address.last) (v : Expr) :
    ((m.store a v w).state.load a w).outcome = .ok (some (v.resized w)) := by
  obtain ⟨-, hvalid, hheld⟩ := store_ok h (.inr hlast) v
  have hpresent : (m.store a v w).state.held.Present a w := by
    intro p hlo hhi
    rw [hheld, Contents.write, if_pos ⟨hlo, hhi⟩]
    rfl
  rw [outcome_load_present hvalid hw hlast hpresent, (store_eq h hw hlast v).1]
  dsimp only
  rw [Entry.restrict_overwrite_self h hw]
  exact compose_full a v w

theorem load_whole (h : m.Valid) (he : Entry.mk a (.full v w) ∈ m.entries) :
    (m.load a w).outcome = .ok (some (v.resized w)) := by
  have hlast : a + w.bytes ≤ Address.last := h.bounded _ he
  have hw : 0 < w.bytes := Nat.lt_add_right_iff_pos.1 (h.nonempty _ he)
  have hpresent : m.held.Present a w := by
    intro p hlo hhi
    exact Entry.isSome_held.2 ⟨_, he, hlo, hhi⟩
  have hself : Entry.restrict a (a + w.bytes) m.entries = [⟨a, .full v w⟩] := Entry.Ordered.restrict_of_mem h he
  rw [outcome_load_present h hw hlast hpresent, hself]
  exact compose_full a v w

end SparseLayer

end LayeredMemory
