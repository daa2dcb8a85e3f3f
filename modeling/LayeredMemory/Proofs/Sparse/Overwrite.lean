import LayeredMemory.Proofs.Lists
import LayeredMemory.Proofs.Sparse.Entries

namespace LayeredMemory

namespace Entry

variable {e : Entry} {l m : List Entry} {p lo hi a stop : Nat}

structure Around (a stop : Nat) (l before hit after : List Entry) : Prop where
  parts : l = before ++ hit ++ after
  before_le : ∀ e ∈ before, e.stop ≤ a
  overlaps : ∀ e ∈ hit, e.Overlaps a stop
  le_after : ∀ e ∈ after, stop ≤ e.start

theorem around_scan (h : Ordered l) (a stop : Nat) :
    ∃ before after, Around a stop l before (SparseLayer.scan l a stop) after := by
  let below := l.takeWhile (fun e => decide (e.start < stop))
  let hit := (below.reverse.takeWhile (fun e => decide (a < e.stop))).reverse
  let before := (below.reverse.dropWhile (fun e => decide (a < e.stop))).reverse
  let after := l.dropWhile (fun e => decide (e.start < stop))
  have hascending : l.Pairwise (fun e f => e.start < f.start ∧ e.stop ≤ f.stop) := by
    refine h.ascending.imp_of_mem fun {e f} he hf hef => ?_
    have := h.nonempty e he
    have := h.nonempty f hf
    omega
  have hbelow : below.Pairwise (fun e f => e.start < f.start ∧ e.stop ≤ f.stop) :=
    hascending.sublist (List.takeWhile_sublist _)
  have hscan : SparseLayer.scan l a stop = hit := by
    rw [SparseLayer.scan, SparseLayer.descend_eq, List.append_nil]
  rw [hscan]
  refine ⟨before, after, ?_⟩
  · constructor
    · have hparts : before ++ hit = below := by
        rw [← List.reverse_append, List.takeWhile_append_dropWhile, List.reverse_reverse]
      rw [hparts, List.takeWhile_append_dropWhile]
    · -- the scan goes down from the end of the range, where the ends of entries only get smaller
      intro e he
      have hrev : below.reverse.Pairwise
          (fun e f => decide (a < f.stop) = true → decide (a < e.stop) = true) := by
        apply List.pairwise_reverse.2
        refine hbelow.imp fun {e f} hef => ?_
        simp only [decide_eq_true_eq]
        omega
      have := forall_mem_dropWhile_not hrev e (List.mem_reverse.1 he)
      simpa using this
    · intro e he
      have hin := List.mem_reverse.1 he
      have hstop := List.all_eq_true.1 List.all_takeWhile e hin
      have hstart := List.all_eq_true.1 List.all_takeWhile e
        (List.mem_reverse.1 ((List.takeWhile_sublist _).subset hin))
      exact ⟨by simpa using hstop, by simpa using hstart⟩
    · intro e he
      have hdown : l.Pairwise
          (fun e f => decide (f.start < stop) = true → decide (e.start < stop) = true) := by
        refine hascending.imp fun {e f} hef => ?_
        simp only [decide_eq_true_eq]
        omega
      simpa using forall_mem_dropWhile_not hdown e he

theorem scan_eq (h : Ordered l) (a stop : Nat) :
    SparseLayer.scan l a stop = l.filter (fun e => decide (e.Overlaps a stop)) := by
  obtain ⟨before, after, hparts⟩ := around_scan h a stop
  have hhit := List.filter_eq_self.2 fun e he => decide_eq_true (hparts.overlaps e he)
  have hbefore : before.filter (fun e => decide (e.Overlaps a stop)) = [] := by
    apply List.filter_eq_nil_iff.2
    intro e he hover
    have := (of_decide_eq_true hover).1
    have := hparts.before_le e he
    omega
  have hafter : after.filter (fun e => decide (e.Overlaps a stop)) = [] := by
    apply List.filter_eq_nil_iff.2
    intro e he hover
    have := (of_decide_eq_true hover).2
    have := hparts.le_after e he
    omega
  conv => rhs; rw [hparts.parts, List.filter_append, List.filter_append]
  rw [hbefore, hafter, hhit, List.nil_append, List.append_nil]

theorem overlaps_of_mem_scan (h : Ordered l) (he : e ∈ SparseLayer.scan l a stop) : e.Overlaps a stop := by
  rw [scan_eq h] at he
  exact of_decide_eq_true (List.mem_filter.1 he).2

theorem bounded_of_mem_scan (h : Ordered l) (he : e ∈ SparseLayer.scan l a stop) : e.stop ≤ Address.last := by
  rw [scan_eq h] at he
  exact h.bounded e (List.mem_filter.1 he).1

def overwrite (l : List Entry) (a stop : Nat) (v : Expr) (w : Width) : List Entry :=
  restrict 0 a l ++ ⟨a, .full v w⟩ :: restrict stop Address.last l

def cutOut (a stop : Nat) (e : Entry) (l : List Entry) : List Entry :=
  let rest := SparseLayer.replaceAt e.start [] l
  let below := if e.start < a then SparseLayer.replaceAt e.start [e.clip 0 a] rest else rest
  if stop < e.stop then SparseLayer.replaceAt stop [e.clip stop Address.last] below else below

theorem leads_keepBelow (h : e.Overlaps a stop) (l : List Entry) :
    (SparseLayer.keepBelow a e).Leads l ()
      (if e.start < a then SparseLayer.replaceAt e.start [e.clip 0 a] l else l) := by
  unfold SparseLayer.keepBelow
  split
  · rename_i hstart
    have hlow : (e.clip 0 a).start = max e.start 0 := start_clip a (Nat.lt_of_le_of_lt (Nat.zero_le a) h.1)
    rw [upTo_eq hstart (Nat.le_of_lt h.1) (Nat.zero_le _)]
    refine (Change.leads_record _ l).bind (.bind ⟨rfl, rfl⟩ ?_)
    rw [hlow, Nat.max_eq_left (Nat.zero_le _)]
    exact Change.leads_modify _ l
  · exact ⟨rfl, rfl⟩

theorem leads_keepAbove (h : e.Overlaps a stop) (hlast : e.stop ≤ Address.last) (l : List Entry) :
    (SparseLayer.keepAbove stop e).Leads l ()
      (if stop < e.stop then SparseLayer.replaceAt stop [e.clip stop Address.last] l else l) := by
  unfold SparseLayer.keepAbove
  split
  · rename_i hstop
    have hhigh := start_clip Address.last hstop
    rw [onward_eq (Nat.le_of_lt h.2) hstop hlast]
    refine (Change.leads_record _ l).bind (.bind ⟨rfl, rfl⟩ ?_)
    rw [hhigh, Nat.max_eq_right (Nat.le_of_lt h.2)]
    exact Change.leads_modify _ l
  · exact ⟨rfl, rfl⟩

theorem leads_cut (h : e.Overlaps a stop) (hlast : e.stop ≤ Address.last) (l : List Entry) :
    (SparseLayer.cut a stop e).Leads l () (cutOut a stop e l) :=
  (Change.leads_modify _ l).bind ((leads_keepBelow h _).bind (leads_keepAbove h hlast _))

theorem replaceAt_between (mid : List Entry) {before after new : List Entry} (hbefore : ∀ e ∈ before, e.start < a)
    (hmid : ∀ e ∈ mid, e.start = a) (hafter : ∀ e ∈ after, a < e.start) :
    SparseLayer.replaceAt a new (before ++ (mid ++ after)) = before ++ (new ++ after) := by
  have hrest : ∀ e ∈ mid ++ after, decide (e.start < a) = false := by
    intro e he
    apply decide_eq_false
    rcases List.mem_append.1 he with he | he
    · exact Nat.not_lt.2 (Nat.le_of_eq (hmid e he).symm)
    · exact Nat.not_lt.2 (Nat.le_of_lt (hafter e he))
  have hfirst : ∀ e ∈ before, decide (e.start < a) = true := fun e he => decide_eq_true (hbefore e he)
  rw [SparseLayer.replaceAt, SparseLayer.descend_eq, takeWhile_between hfirst hrest, dropWhile_between hfirst hrest,
    List.append_nil]
  dsimp only
  rw [dropWhile_between (fun e he => beq_iff_eq.2 (hmid e he)) fun e he => beq_false_of_ne (Nat.ne_of_gt (hafter e he)),
    List.reverseAux_eq, List.reverse_reverse]

namespace Around

variable {before hit after : List Entry}

theorem restrict_below (hparts : Around a stop l before hit after) (h : Ordered l) (hle : a ≤ stop) :
    restrict 0 a l = before ++ restrict 0 a hit := by
  have hbefore : restrict 0 a before = before := by
    apply restrict_eq_self
    · intro e he
      exact h.nonempty e (by simp [hparts.parts, he])
    · intro e _
      exact Nat.zero_le _
    · exact hparts.before_le
  have hafter : restrict 0 a after = [] := by
    apply restrict_eq_nil
    intro e he hover
    have := hover.2
    have := hparts.le_after e he
    omega
  rw [hparts.parts, restrict_append, restrict_append, hbefore, hafter, List.append_nil]

theorem restrict_above (hparts : Around a stop l before hit after) (h : Ordered l) (hle : a ≤ stop) :
    restrict stop Address.last l = restrict stop Address.last hit ++ after := by
  have hbefore : restrict stop Address.last before = [] := by
    apply restrict_eq_nil
    intro e he hover
    have := hover.1
    have := hparts.before_le e he
    omega
  have hafter : restrict stop Address.last after = after := by
    apply restrict_eq_self
    · intro e he
      exact h.nonempty e (by simp [hparts.parts, he])
    · exact hparts.le_after
    · intro e he
      exact h.bounded e (by simp [hparts.parts, he])
  rw [hparts.parts, restrict_append, restrict_append, hbefore, hafter, List.nil_append]

end Around

theorem restrict_singleton_below (h : e.Overlaps a stop) :
    restrict 0 a [e] = if e.start < a then [e.clip 0 a] else [] := by
  split
  · rename_i hstart
    rw [restrict_cons_of_overlaps ⟨Nat.lt_of_le_of_lt (Nat.zero_le a) h.1, hstart⟩]
    rfl
  · rename_i hstart
    rw [restrict_cons_of_not (fun hc => hstart hc.2)]
    rfl

theorem restrict_singleton_above (h : e.Overlaps a stop) (hlast : e.stop ≤ Address.last) :
    restrict stop Address.last [e] = if stop < e.stop then [e.clip stop Address.last] else [] := by
  split
  · rename_i hstop
    rw [restrict_cons_of_overlaps ⟨hstop, Nat.lt_of_lt_of_le h.2 (Nat.le_trans (Nat.le_of_lt hstop) hlast)⟩]
    rfl
  · rename_i hstop
    rw [restrict_cons_of_not (fun hc => hstop hc.1)]
    rfl

theorem cutOut_between {before after : List Entry} (h : Ordered (e :: after)) (hover : e.Overlaps a stop)
    (hbefore : ∀ f ∈ before, f.start < e.start) :
    cutOut a stop e (before ++ e :: after) =
      before ++ (restrict 0 a [e] ++ (restrict stop Address.last [e] ++ after)) := by
  have hne := h.nonempty e (by simp)
  have hbehind : ∀ f ∈ after, e.start < f.start := fun f hf => Nat.lt_of_lt_of_le hne (h.stop_le_start f hf)
  have hout : SparseLayer.replaceAt e.start [] (before ++ e :: after) = before ++ after :=
    replaceAt_between [e] hbefore (by simp) hbehind
  have hlow : (if e.start < a then SparseLayer.replaceAt e.start [e.clip 0 a] (before ++ after) else before ++ after) =
      before ++ restrict 0 a [e] ++ after := by
    rw [restrict_singleton_below hover, List.append_assoc]
    split
    · exact replaceAt_between [] hbefore (by simp) hbehind
    · rfl
  rw [cutOut, hout, hlow, restrict_singleton_above hover (h.bounded e (by simp)), ← List.append_assoc]
  split
  · rename_i hstop
    apply replaceAt_between []
    · intro f hf
      rcases List.mem_append.1 hf with hf | hf
      · exact Nat.lt_trans (hbefore f hf) hover.2
      · obtain ⟨g, hg, hgover, rfl⟩ := mem_restrict.1 hf
        obtain rfl := List.mem_singleton.1 hg
        rw [start_clip _ hgover.1, Nat.max_eq_left (Nat.zero_le _)]
        exact hover.2
    · simp
    · exact fun f hf => Nat.lt_of_lt_of_le hstop (h.stop_le_start f hf)
  · rfl

/-- An entry that goes on behind the range is the last one in its way, so parts kept behind the range stand behind all
entries that are still to be cut. -/
theorem foldl_cutOut {before hit after : List Entry} (h : Ordered (hit ++ after))
    (hover : ∀ e ∈ hit, e.Overlaps a stop) (hbefore : ∀ f ∈ before, ∀ e ∈ hit, f.start < e.start) :
    hit.foldl (fun l e => cutOut a stop e l) (before ++ (hit ++ after)) =
      before ++ (restrict 0 a hit ++ (restrict stop Address.last hit ++ after)) := by
  induction hit generalizing before with
  | nil => rfl
  | cons e hit ih =>
    have hover' : ∀ f ∈ hit, f.Overlaps a stop := fun f hf => hover f (.tail _ hf)
    have hcons : Ordered (e :: (hit ++ after)) := h
    rw [List.foldl_cons, List.cons_append, cutOut_between hcons (hover e (by simp)) fun f hf => hbefore f hf e (by simp),
      ← List.singleton_append (l := hit), restrict_append, restrict_append]
    by_cases hstop : stop < e.stop
    · have hnil : hit = [] := by
        apply List.eq_nil_iff_forall_not_mem.2
        intro f hf
        have := (hover' f hf).2
        have := hcons.stop_le_start f (List.mem_append_left _ hf)
        omega
      subst hnil
      simp [restrict]
    · have hnone : restrict stop Address.last [e] = [] := restrict_eq_nil (by simp [Overlaps, hstop])
      have hfirst : ∀ f ∈ before ++ restrict 0 a [e], ∀ g ∈ hit, f.start < g.start := by
        intro f hf g hg
        rcases List.mem_append.1 hf with hf | hf
        · exact hbefore f hf g (.tail _ hg)
        · obtain ⟨e', he', hlow, rfl⟩ := mem_restrict.1 hf
          obtain rfl := List.mem_singleton.1 he'
          rw [start_clip _ hlow.1, Nat.max_eq_left (Nat.zero_le _)]
          exact Nat.lt_of_lt_of_le (h.nonempty e' (by simp)) (hcons.stop_le_start g (List.mem_append_left _ hg))
      rw [hnone, List.nil_append, List.nil_append, ← List.append_assoc, ih hcons.tail hover' hfirst, List.append_assoc,
        List.append_assoc]

theorem replaceAt_foldl_cutOut (h : Ordered l) (hlt : a < stop) (v : Expr) (w : Width) :
    SparseLayer.replaceAt a [⟨a, .full v w⟩] ((SparseLayer.scan l a stop).foldl (fun l e => cutOut a stop e l) l) =
      overwrite l a stop v w := by
  obtain ⟨before, after, hparts⟩ := around_scan h a stop
  have hcut : (SparseLayer.scan l a stop).foldl (fun l e => cutOut a stop e l) l =
      restrict 0 a l ++ restrict stop Address.last l := by
    rw [hparts.restrict_below h (Nat.le_of_lt hlt), hparts.restrict_above h (Nat.le_of_lt hlt)]
    generalize SparseLayer.scan l a stop = hit at hparts ⊢
    have hl := hparts.parts
    rw [List.append_assoc] at hl
    subst hl
    have hstarts := (List.pairwise_append.1 h.ascending_starts).2.2
    rw [foldl_cutOut (h.sublist (List.sublist_append_right ..)) hparts.overlaps fun f hf e he =>
      hstarts f hf e (List.mem_append_left _ he)]
    simp only [List.append_assoc]
  have hbelow : ∀ e ∈ restrict 0 a l, e.start < a := by
    intro e he
    have := bounds_of_mem_restrict h (fun e _ hover => lt_of_overlaps_zero hover) he
    omega
  have habove : ∀ e ∈ restrict stop Address.last l, a < e.start := by
    intro e he
    have := bounds_of_mem_restrict h (fun e he hover => h.lt_of_overlaps_last he hover) he
    omega
  rw [hcut, overwrite]
  exact replaceAt_between [] hbelow (by simp) habove

theorem leads_overwriting (h : Ordered l) (v : Expr) {w : Width} (hw : 0 < w.bytes)
    (hlast : a + w.bytes ≤ Address.last) :
    (SparseLayer.overwriting a v w).Leads l () (overwrite l a (a + w.bytes) v w) := by
  have hrange : (liftM (Address.rangeEnd a w) : Change (List Entry) Fault Nat).Leads l (a + w.bytes) l := by
    rw [Address.rangeEnd_ok hlast]
    exact ⟨rfl, rfl⟩
  have hget : (get : Change (List Entry) Fault (List Entry)).Leads l l l := ⟨rfl, rfl⟩
  have hcut := Change.leads_forM (fun e (he : e ∈ SparseLayer.scan l a (a + w.bytes)) =>
    leads_cut (overlaps_of_mem_scan h he) (bounded_of_mem_scan h he)) l
  rw [← replaceAt_foldl_cutOut h (Nat.lt_add_of_pos_right hw) v w]
  exact hrange.bind (hget.bind ((Change.leads_record _ l).bind (hcut.bind (Change.leads_modify _ _))))

theorem overwrite_behind (h : Ordered l) (hbelow : ∀ e ∈ l, e.stop ≤ a) (hle : a ≤ stop) (v : Expr)
    (w : Width) : overwrite l a stop v w = l ++ [⟨a, .full v w⟩] := by
  have hkept : restrict 0 a l = l := restrict_eq_self h.nonempty (fun _ _ => Nat.zero_le _) hbelow
  have hnone : restrict stop Address.last l = [] := by
    apply restrict_eq_nil
    intro e he hover
    have := hover.1
    have := hbelow e he
    omega
  rw [overwrite, hkept, hnone]

theorem stop_full (a : Nat) (v : Expr) (w : Width) : (Entry.mk a (.full v w)).stop = a + w.bytes := rfl

theorem ordered_overwrite (h : Ordered l) (v : Expr) {w : Width} (hw : 0 < w.bytes)
    (hlast : a + w.bytes ≤ Address.last) : Ordered (overwrite l a (a + w.bytes) v w) := by
  have hbelow : ∀ e ∈ l, e.Overlaps 0 a → 0 < a := fun e _ hover => lt_of_overlaps_zero hover
  have habove : ∀ e ∈ l, e.Overlaps (a + w.bytes) Address.last → a + w.bytes < Address.last :=
    fun e he hover => h.lt_of_overlaps_last he hover
  have hafter : ∀ f ∈ restrict (a + w.bytes) Address.last l, a + w.bytes ≤ f.start :=
    fun f hf => (bounds_of_mem_restrict h habove hf).1
  refine (ordered_restrict h hbelow).append (.cons ?_ hlast (ordered_restrict h habove) hafter) fun e he f hf => ?_
  · rw [stop_full]
    change a < a + w.bytes
    omega
  · have hstop := (bounds_of_mem_restrict h hbelow he).2.2
    rcases List.mem_cons.1 hf with rfl | hf
    · exact hstop
    · have := hafter f hf
      omega

theorem held_restrict_last (h : Ordered l) :
    held (restrict lo Address.last l) p = if lo ≤ p then held l p else none := by
  rw [held_restrict]
  by_cases hp : p < Address.last
  · simp only [hp, and_true]
  · have hnone : held l p = none := by
      apply held_eq_none.2
      intro e he hc
      have := hc.2
      have := h.bounded e he
      omega
    rw [hnone, ite_self, ite_self]

theorem held_overwrite (h : Ordered l) (v : Expr) {w : Width} (hw : 0 < w.bytes) :
    held (overwrite l a (a + w.bytes) v w) = (held l).write a v w := by
  funext p
  have hself : (Entry.mk a (.full v w)).Contains p ↔ a ≤ p ∧ p < a + w.bytes := Iff.rfl
  rw [overwrite, held_append, held_cons, held_restrict, held_restrict_last h, Contents.write]
  by_cases hin : a ≤ p ∧ p < a + w.bytes
  · rw [if_neg (by omega), if_pos (hself.2 hin), if_pos hin, Option.none_or]
    simp [byteAt, Slice.full, Width.zero]
  · rw [if_neg (fun hc => hin (hself.1 hc)), if_neg hin]
    by_cases hp : p < a
    · rw [if_pos ⟨Nat.zero_le p, hp⟩, if_neg (by omega), Option.or_none]
    · rw [if_neg (by omega), if_pos (by omega), Option.none_or]

theorem breach?_eq_none (h : Ordered l) {last : Option Nat}
    (hlast : ∀ stop, last = some stop → ∀ e ∈ l, stop ≤ e.start) : SparseLayer.breach? last l = none := by
  induction l generalizing last with
  | nil => rfl
  | cons e l ih =>
    have hne := h.nonempty e (by simp)
    have hwidth : e.slice.width.isZero = false := by
      have hstop : e.stop = e.start + e.slice.width.bytes := rfl
      simp only [Width.isZero, beq_eq_false_iff_ne]
      omega
    have hrest : SparseLayer.breach? (some e.stop) l = none := ih h.tail fun stop hs f hf => by
      obtain rfl := Option.some.inj hs
      exact h.stop_le_start f hf
    cases last with
    | none => simpa [SparseLayer.breach?, hwidth] using hrest
    | some stop =>
      have := hlast stop rfl e (by simp)
      simpa [SparseLayer.breach?, hwidth, Nat.not_lt.2 this] using hrest

end Entry

namespace SparseLayer

def Valid (m : SparseLayer) : Prop := Entry.Ordered m.entries

def held (m : SparseLayer) : Contents := Entry.held m.entries

theorem valid_fresh (d : Diagnostics) : Valid { diagnostics := d } := Entry.Ordered.nil

theorem held_fresh (d : Diagnostics) : held { diagnostics := d } = Contents.empty := rfl

theorem check_of_valid {m : SparseLayer} (h : m.Valid) : m.check = .ok () := by
  rw [check, Entry.breach?_eq_none h (fun stop hs => by cases hs)]

theorem examine_of_valid {m : SparseLayer} (h : m.Valid) : m.examine = pure () := by
  unfold examine
  split
  · rw [check_of_valid h]
    rfl
  · rfl

theorem outcome_examine {m : SparseLayer} (h : m.Valid) : m.examine.outcome = .ok () := by
  rw [examine_of_valid h]
  rfl

theorem store_zero {m : SparseLayer} {w : Width} (hw : w.bytes = 0) (a : Nat) (v : Expr) :
    (m.store a v w).state = m ∧ (m.store a v w).report.outcome = .ok () := by
  rw [store, if_pos (Width.isZero_of_bytes hw)]
  exact ⟨rfl, rfl⟩

theorem store_overflow {m : SparseLayer} {a : Nat} {w : Width} (hw : 0 < w.bytes)
    (hlast : Address.last < a + w.bytes) (v : Expr) :
    (m.store a v w).state = m ∧ (m.store a v w).report.outcome = .error (.rangeOverflow a w) := by
  rw [store, if_neg (Width.not_isZero hw), overwritten, overwriting, Address.rangeEnd_error hlast]
  exact Step.examined_error rfl rfl _

theorem store_eq {m : SparseLayer} (h : m.Valid) {a : Nat} {w : Width} (hw : 0 < w.bytes)
    (hlast : a + w.bytes ≤ Address.last) (v : Expr) :
    (m.store a v w).state = { m with entries := Entry.overwrite m.entries a (a + w.bytes) v w } ∧
      (m.store a v w).report.outcome = .ok () := by
  obtain ⟨hentries, hok⟩ := Entry.leads_overwriting h v hw hlast
  rw [store, if_neg (Width.not_isZero hw)]
  apply Step.examined_ok
  · rw [← hentries]
    rfl
  · exact hok
  · exact outcome_examine (Entry.ordered_overwrite h v hw hlast)

theorem store_ok {m : SparseLayer} (h : m.Valid) {a : Nat} {w : Width}
    (hfit : w.bytes = 0 ∨ a + w.bytes ≤ Address.last) (v : Expr) :
    (m.store a v w).report.outcome = .ok () ∧ (m.store a v w).state.Valid ∧
      (m.store a v w).state.held = m.held.write a v w := by
  by_cases hw : 0 < w.bytes
  · have hlast : a + w.bytes ≤ Address.last := hfit.resolve_left (by omega)
    obtain ⟨hstate, hok⟩ := store_eq h hw hlast v
    rw [hstate]
    exact ⟨hok, Entry.ordered_overwrite h v hw hlast, Entry.held_overwrite h v hw⟩
  · obtain ⟨hstate, hok⟩ := store_zero (m := m) (w := w) (by omega) a v
    rw [hstate]
    refine ⟨hok, h, ?_⟩
    funext p
    rw [Contents.write, if_neg (by omega)]

theorem fits_of_store_ok {m : SparseLayer} {a : Nat} {v : Expr} {w : Width}
    (hok : (m.store a v w).report.outcome = .ok ()) : w.bytes = 0 ∨ a + w.bytes ≤ Address.last := by
  apply Classical.not_not.1
  intro hnot
  obtain ⟨-, herr⟩ := store_overflow (m := m) (a := a) (w := w) (by omega) (by omega) v
  rw [herr] at hok
  cases hok

end SparseLayer

end LayeredMemory
