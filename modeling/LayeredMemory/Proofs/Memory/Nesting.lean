import LayeredMemory.Proofs.Memory.Equivalence

namespace LayeredMemory

theorem Contents.onto_assoc (high mid low : Contents) : (high.onto mid).onto low = high.onto (mid.onto low) := by
  funext p
  exact Option.or_assoc

theorem Contents.onto_empty (held : Contents) : held.onto empty = held := by
  funext p
  exact Option.or_none

namespace Memory

variable {A B C m base top : Memory Empty} {layers : Layers} {stored : List Expr} {writes : List Write} {a : Nat}
  {w : Width}

def after (m : Memory Empty) : List Write → Memory Empty
  | [] => m
  | s :: rest => (m.store s.start s.value s.width).state.after rest

def reports (m : Memory Empty) : List Write → List (Traced Fault Unit)
  | [] => []
  | s :: rest =>
    (m.store s.start s.value s.width).report :: (m.store s.start s.value s.width).state.reports rest

def accepted (m : Memory Empty) : List Write → List Expr
  | [] => []
  | s :: rest =>
    let later := (m.store s.start s.value s.width).state.accepted rest
    match (m.store s.start s.value s.width).report.outcome with
    | .ok () => later ++ [s.value]
    | .error _ => later

theorem after_overlay (base top : Memory Empty) (writes : List Write) :
    (overlay base top).after writes = overlay base (top.after writes) := by
  induction writes generalizing top with
  | nil => rfl
  | cons s rest ih => exact ih _

theorem reports_overlay (base top : Memory Empty) (writes : List Write) :
    (overlay base top).reports writes = top.reports writes := by
  induction writes generalizing top with
  | nil => rfl
  | cons s rest ih => exact congrArg (_ :: ·) (ih _)

theorem History.after (h : History m layers stored) (writes : List Write) :
    ∃ layers', History (m.after writes) layers' (m.accepted writes ++ stored) := by
  induction writes generalizing m layers stored with
  | nil => exact ⟨layers, h⟩
  | cons s rest ih =>
    have hstep : m.storeAt [] s.start s.value s.width = some (m.store s.start s.value s.width) := rfl
    rw [accepted]
    cases hout : (m.store s.start s.value s.width).report.outcome with
    | ok _ =>
      obtain ⟨layers', hrest⟩ := ih (h.store hstep hout)
      refine ⟨layers', ?_⟩
      rw [List.append_assoc]
      exact hrest
    | error e => exact ih (h.failed hstep hout)

theorem load_overlay_past_end (base top : Memory Empty) (hlast : Address.last < a + w.bytes) :
    ((overlay base top).load a w).outcome = .error (.rangeOverflow a w) := by
  rw [load, missing_past_end hlast]
  rfl

theorem missing_congr {n : Memory Empty} (hm : m.Valid) (hn : n.Valid) (hblocks : m.blocks = n.blocks) (a : Nat)
    (w : Width) : m.missing a w = n.missing a w := by
  by_cases hlast : a + w.bytes ≤ Address.last
  · have hleft := (answers hm).missing_eq hlast
    have hright := (answers hn).missing_eq hlast
    change m.missing a w = _ at hleft
    change n.missing a w = _ at hright
    rw [hleft, hright]
    change _ = Except.ok ((IntervalSet.ofInterval (Address.range a w)).difference n.blocks)
    rw [← hblocks]
    rfl
  · rw [missing_past_end (Nat.lt_of_not_le hlast), missing_past_end (Nat.lt_of_not_le hlast)]

theorem load_absent (h : m.Valid) (hlast : a + w.bytes ≤ Address.last) (habsent : ¬ m.held.Present a w) :
    (m.load a w).outcome = .ok none := by
  have hw : 0 < w.bytes := by
    apply Nat.pos_of_ne_zero
    intro hzero
    exact habsent fun p hlo hhi => absurd hhi (by omega)
  obtain ⟨r, hload, hsome, -⟩ := (answers h).load a w hw hlast
  rw [← hsome, Option.not_isSome_iff_eq_none] at habsent
  rw [← habsent]
  exact hload

section

variable {E : SparseLayer}

theorem valid_of_isEmpty (hE : E.isEmpty = true) : E.Valid ∧ E.held = Contents.empty := by
  obtain ⟨entries, d⟩ := E
  obtain rfl : entries = [] := List.isEmpty_iff.1 hE
  exact ⟨SparseLayer.valid_fresh d, rfl⟩

theorem load_over_empty (hA : A.Valid) (hE : E.isEmpty = true) (hlast : a + w.bytes ≤ Address.last) :
    ((overlay (.sparse E) A).load a w).outcome = (A.load a w).outcome := by
  obtain ⟨hvalid, hheld⟩ := valid_of_isEmpty hE
  have hover : (overlay (.sparse E) A).Valid := ⟨hvalid, hA⟩
  obtain ⟨gaps, -, hgaps, hmem, -, -⟩ := missing_overlay (answers (m := .sparse E) hvalid) (answers hA) hlast
  by_cases hempty : gaps.isEmpty
  · exact load_overlay_of_isEmpty hgaps hempty
  · have habsent : ¬ A.held.Present a w := by
      intro hpresent
      apply hempty
      apply IntervalSet.isEmpty_iff.2
      intro p hp
      obtain ⟨⟨hlo, hhi⟩, hnone⟩ := (hmem p).1 hp
      have hsome := hpresent p hlo hhi
      rw [hnone] at hsome
      cases hsome
    have hsame : (overlay (.sparse E) A).held = A.held := by
      change A.held.onto E.held = A.held
      rw [hheld, Contents.onto_empty]
    rw [load_absent hA hlast habsent, load_absent hover hlast (hsame ▸ habsent)]

theorem load_under_empty (hA : A.Valid) (hE : E.isEmpty = true) (hlast : a + w.bytes ≤ Address.last) :
    ((overlay A (.sparse E)).load a w).outcome = (A.load a w).outcome := by
  obtain ⟨hvalid, hheld⟩ := valid_of_isEmpty hE
  have hover : (overlay A (.sparse E)).Valid := ⟨hA, hvalid⟩
  by_cases hw : 0 < w.bytes
  · obtain ⟨gaps, -, hgaps, hmem, -, -⟩ := missing_overlay (answers hA) (answers (m := .sparse E) hvalid) hlast
    have hwhole : gaps = .ofInterval (Address.range a w) := by
      apply IntervalSet.ext_of_mem
      intro p
      rw [hmem, IntervalSet.mem_ofInterval]
      change _ ∧ E.held p = none ↔ _
      rw [hheld]
      exact and_iff_left rfl
    have hne : ¬ gaps.isEmpty := by
      rw [hwhole, IntervalSet.isEmpty_iff]
      intro hnone
      apply hnone a
      rw [IntervalSet.mem_ofInterval]
      exact ⟨Nat.le_refl a, Nat.lt_add_of_pos_right hw⟩
    rw [load, hgaps, Traced.outcome_bind_ok (Traced.outcome_liftM _), readThrough, if_neg hne,
      Address.requested_ok hlast, Traced.outcome_bind_ok (Traced.outcome_liftM _), if_pos hwhole]
  · have hzero : w.bytes = 0 := by omega
    have hleft : ((overlay A (.sparse E)).load a w).outcome = .ok none :=
      (answers hover).load_zero a w hzero (by omega)
    have hright : (A.load a w).outcome = .ok none := (answers hA).load_zero a w hzero (by omega)
    rw [hleft, hright]

theorem blocks_with_empty (A : Memory Empty) (hE : E.isEmpty = true) :
    (overlay A (.sparse E)).blocks = A.blocks ∧ (overlay (.sparse E) A).blocks = A.blocks := by
  obtain ⟨entries, d⟩ := E
  obtain rfl : entries = [] := List.isEmpty_iff.1 hE
  have hnone : ∀ p, p ∉ (SparseLayer.mk [] d).blocks := fun p hp => IntervalSet.not_mem_empty hp
  constructor
  · apply IntervalSet.ext_of_mem
    intro p
    change p ∈ A.blocks.union (SparseLayer.mk [] d).blocks ↔ _
    rw [IntervalSet.mem_union]
    exact or_iff_left (hnone p)
  · apply IntervalSet.ext_of_mem
    intro p
    change p ∈ (SparseLayer.mk [] d).blocks.union A.blocks ↔ _
    rw [IntervalSet.mem_union]
    exact or_iff_right (hnone p)

end

theorem held_nested (A B C : Memory Empty) : (overlay (overlay A B) C).held = (overlay A (overlay B C)).held :=
  (Contents.onto_assoc C.held B.held A.held).symm

/-- Overlays of histories form a monoid, up to what can be asked of a memory. -/
theorem overlays_form_monoid {below mid above : Layers} {stored stored' stored'' : List Expr}
    (hA : History A below stored) (hB : History B mid stored') (hC : History C above stored'') (writes : List Write)
    {E : SparseLayer} (hE : E.isEmpty = true) :
    let left := overlay (overlay A B) C
    let right := overlay A (overlay B C)
    (left.reports writes = right.reports writes ∧
      (∀ a w, (left.after writes).missing a w = (right.after writes).missing a w) ∧
      Equivalent (left.accepted writes ++ (stored ++ stored' ++ stored'')) (left.after writes) (right.after writes) ∧
      ∀ a w, Address.last < a + w.bytes →
        ((left.after writes).load a w).outcome = .error (.rangeOverflow a w) ∧
          ((right.after writes).load a w).outcome = .error (.rangeOverflow a w)) ∧
    (∀ a w, a + w.bytes ≤ Address.last →
      ((overlay A (.sparse E)).load a w).outcome = (A.load a w).outcome ∧
        ((overlay (.sparse E) A).load a w).outcome = (A.load a w).outcome) ∧
    (∀ a w, (overlay A (.sparse E)).missing a w = A.missing a w ∧
      (overlay (.sparse E) A).missing a w = A.missing a w) ∧
    (overlay A (.sparse E)).blocks = A.blocks ∧ (overlay (.sparse E) A).blocks = A.blocks := by
  intro left right
  obtain ⟨_, hleft⟩ := ((hA.overlay hB).overlay hC).after writes
  obtain ⟨_, hlater⟩ := hC.after writes
  have hafter : left.after writes = overlay (overlay A B) (C.after writes) := after_overlay _ _ _
  have hafter' : right.after writes = overlay A (overlay B (C.after writes)) := by
    rw [after_overlay, after_overlay]
  have hvalid := hA.tracks.valid
  have hright : (right.after writes).Valid := by
    rw [hafter']
    exact ⟨hvalid, hB.tracks.valid, hlater.tracks.valid⟩
  have hheld : (left.after writes).held = (right.after writes).held := by
    rw [hafter, hafter', held_nested]
  have hequivalent := hleft.tracks.follows.equivalent (hheld ▸ hleft.tracks.follows) (answers hleft.tracks.valid)
    (answers hright)
  refine ⟨⟨?_, ?_, hequivalent, fun a w hlast => ?_⟩, fun a w hlast => ?_, fun a w => ?_, blocks_with_empty A hE⟩
  · rw [reports_overlay, reports_overlay, reports_overlay]
  · exact missing_congr hleft.tracks.valid hright hequivalent.blocks
  · rw [hafter, hafter']
    exact ⟨load_overlay_past_end _ _ hlast, load_overlay_past_end _ _ hlast⟩
  · exact ⟨load_under_empty hvalid hE hlast, load_over_empty hvalid hE hlast⟩
  · obtain ⟨hempty, -⟩ := valid_of_isEmpty hE
    obtain ⟨hunder, hover⟩ := blocks_with_empty A hE
    exact ⟨missing_congr (m := overlay A (.sparse E)) ⟨hvalid, hempty⟩ hvalid hunder a w,
      missing_congr (m := overlay (.sparse E) A) ⟨hempty, hvalid⟩ hvalid hover a w⟩

theorem overlays_form_monoid_symbolOnImage :
    let image : Memory Empty := .image ⟨[⟨0, ⟨#[1, 2, 3, 4]⟩⟩], {}⟩
    let symbol : Memory Empty := .sparse { entries := [⟨1, .full (.symbol "x" .w16) .w16⟩] }
    let writes : List Write := [⟨2, .const (.ofNat .w8 0xff), .w8⟩]
    ∃ e f, (((overlay (overlay image symbol) (.sparse {})).after writes).load 0 .w32).outcome = .ok (some e) ∧
      (((overlay image (overlay symbol (.sparse {}))).after writes).load 0 .w32).outcome = .ok (some f) ∧
      ∀ bind, (Expr.symbol "x" .w16).BoundBy bind → ∃ c, e.evaluate bind = some c ∧ f.evaluate bind = some c := by
  intro image symbol writes
  have hempty : History (.sparse {}) (.leaf fun _ => none) [] := .sparse {}
  obtain ⟨⟨-, -, hequivalent, -⟩, -⟩ := overlays_form_monoid (E := {}) history_symbolOnImage.base
    history_symbolOnImage.top hempty writes rfl
  obtain ⟨_, hleft⟩ := ((history_symbolOnImage.base.overlay history_symbolOnImage.top).overlay hempty).after writes
  have hpresent : ∀ p < 4, (((overlay (overlay image symbol) (.sparse {})).after writes).held p).isSome := by
    decide
  obtain ⟨e, he⟩ := exists_load (a := 0) (w := .w32) hleft.tracks.valid (by decide) (by decide)
    fun p _ => hpresent p
  obtain ⟨r, t, hr, ht, hsome, hvalue⟩ := hequivalent.load 0 .w32 (by decide)
  obtain rfl := Except.ok.inj (he.symm.trans hr)
  obtain ⟨f, rfl⟩ := Option.isSome_iff_exists.1 (hsome.1 rfl)
  refine ⟨e, f, he, ht, fun bind hbind => hvalue e f rfl rfl bind fun v hv => ?_⟩
  have haccepted : (overlay (overlay image symbol) (.sparse {})).accepted writes = [.const (.ofNat .w8 0xff)] := rfl
  rw [haccepted] at hv
  simp only [List.cons_append, List.nil_append, List.append_nil, List.mem_cons, List.not_mem_nil, or_false,
    or_self] at hv
  rcases hv with rfl | rfl
  · intro name hname
    cases Expr.mem_symbols.1 hname
  · exact hbind

end Memory

end LayeredMemory
