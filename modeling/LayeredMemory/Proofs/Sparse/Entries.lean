import LayeredMemory.Proofs.Contents

namespace LayeredMemory

namespace Entry

def byteAt (e : Entry) (p : Nat) : ValueByte := ⟨e.slice.source, e.slice.lo.bytes + (p - e.start)⟩

def Contains (e : Entry) (p : Nat) : Prop := e.start ≤ p ∧ p < e.stop

instance (e : Entry) (p : Nat) : Decidable (e.Contains p) :=
  inferInstanceAs (Decidable (_ ∧ _))

def held (l : List Entry) : Contents := fun p => (l.find? (fun e => decide (e.Contains p))).map (·.byteAt p)

structure Ordered (l : List Entry) : Prop where
  nonempty : ∀ e ∈ l, e.start < e.stop
  ascending : l.Pairwise (fun e f => e.stop ≤ f.start)
  bounded : ∀ e ∈ l, e.stop ≤ Address.last

variable {e f : Entry} {l m : List Entry} {p lo hi a : Nat}

theorem isSome_held : (held l p).isSome ↔ ∃ e ∈ l, e.Contains p := by
  rw [held, Option.isSome_map, List.find?_isSome]
  simp only [decide_eq_true_eq]

theorem held_eq_none : held l p = none ↔ ∀ e ∈ l, ¬ e.Contains p := by
  rw [held, Option.map_eq_none_iff, List.find?_eq_none]
  simp only [decide_eq_true_eq]

theorem held_append : held (l ++ m) p = (held l p).or (held m p) := by
  rw [held, held, held, List.find?_append, Option.map_or]

theorem held_cons : held (e :: l) p = if e.Contains p then some (e.byteAt p) else held l p := by
  unfold held
  rw [List.find?_cons]
  by_cases h : e.Contains p
  · simp [h]
  · simp [h]

namespace Ordered

theorem nil : Ordered [] := ⟨by simp, .nil, by simp⟩

theorem tail (h : Ordered (e :: l)) : Ordered l :=
  ⟨fun f hf => h.nonempty f (.tail _ hf), h.ascending.tail, fun f hf => h.bounded f (.tail _ hf)⟩

theorem stop_le_start (h : Ordered (e :: l)) : ∀ f ∈ l, e.stop ≤ f.start :=
  (List.pairwise_cons.1 h.ascending).1

theorem sublist (h : Ordered l) (hm : m.Sublist l) : Ordered m where
  nonempty := fun e he => h.nonempty e (hm.subset he)
  ascending := h.ascending.sublist hm
  bounded := fun e he => h.bounded e (hm.subset he)

theorem ascending_starts (h : Ordered l) : l.Pairwise (fun e f => e.start < f.start) :=
  h.ascending.imp_of_mem fun he _ hef => Nat.lt_of_lt_of_le (h.nonempty _ he) hef

theorem append (hl : Ordered l) (hm : Ordered m) (hlm : ∀ e ∈ l, ∀ f ∈ m, e.stop ≤ f.start) :
    Ordered (l ++ m) where
  nonempty := by
    intro e he
    rcases List.mem_append.1 he with he | he
    · exact hl.nonempty e he
    · exact hm.nonempty e he
  ascending := List.pairwise_append.2 ⟨hl.ascending, hm.ascending, hlm⟩
  bounded := by
    intro e he
    rcases List.mem_append.1 he with he | he
    · exact hl.bounded e he
    · exact hm.bounded e he

theorem cons (hpos : e.start < e.stop) (hlast : e.stop ≤ Address.last) (hl : Ordered l)
    (hel : ∀ f ∈ l, e.stop ≤ f.start) : Ordered (e :: l) :=
  append (l := [e]) ⟨by simpa, List.pairwise_singleton _ _, by simpa⟩ hl (by simpa)

theorem held_of_mem (h : Ordered l) (he : e ∈ l) (hp : e.Contains p) :
    held l p = some (e.byteAt p) := by
  induction l with
  | nil => cases he
  | cons f l ih =>
    rw [held_cons]
    rcases List.mem_cons.1 he with rfl | he
    · rw [if_pos hp]
    · have hafter := h.stop_le_start e he
      rw [if_neg (fun hf => by have := hf.2; have := hp.1; omega), ih h.tail he]

end Ordered

def clip (lo hi : Nat) (e : Entry) : Entry where
  start := e.start + (min e.slice.hi.bytes (e.slice.lo.bytes + (lo - e.start)) - e.slice.lo.bytes)
  slice :=
    { source := e.slice.source
      lo := ⟨min e.slice.hi.bytes (e.slice.lo.bytes + (lo - e.start)),
        Nat.lt_of_le_of_lt (Nat.min_le_left ..) e.slice.hi.fits⟩
      hi := ⟨max (min e.slice.hi.bytes (e.slice.lo.bytes + (lo - e.start)))
          (min e.slice.hi.bytes (e.slice.lo.bytes + (hi - e.start))),
        Nat.max_lt.2 ⟨Nat.lt_of_le_of_lt (Nat.min_le_left ..) e.slice.hi.fits,
          Nat.lt_of_le_of_lt (Nat.min_le_left ..) e.slice.hi.fits⟩⟩
      lo_le_hi := Nat.le_max_left .. }

def Overlaps (lo hi : Nat) (e : Entry) : Prop := lo < e.stop ∧ e.start < hi

instance (lo hi : Nat) (e : Entry) : Decidable (e.Overlaps lo hi) :=
  inferInstanceAs (Decidable (_ ∧ _))

theorem stop_eq (e : Entry) : e.stop = e.start + (e.slice.hi.bytes - e.slice.lo.bytes) := rfl

theorem start_clip (hi : Nat) (h : lo < e.stop) : (e.clip lo hi).start = max e.start lo := by
  have hle := e.slice.lo_le_hi
  have hstop := e.stop_eq
  simp only [clip]
  omega

theorem stop_clip (h : e.Overlaps lo hi) (hlt : lo < hi) : (e.clip lo hi).stop = min e.stop hi := by
  obtain ⟨hlo, hhi⟩ := h
  have hle := e.slice.lo_le_hi
  have hstop := e.stop_eq
  have hfrom : min e.slice.hi.bytes (e.slice.lo.bytes + (lo - e.start)) = e.slice.lo.bytes + (lo - e.start) := by
    omega
  rw [stop_eq]
  simp only [clip, hfrom]
  omega

theorem lo_clip (e : Entry) (lo hi : Nat) :
    (e.clip lo hi).slice.lo.bytes = e.slice.lo.bytes + ((e.clip lo hi).start - e.start) := by
  have hle := e.slice.lo_le_hi
  simp only [clip]
  omega

theorem byteAt_clip (hp : lo ≤ p) (he : e.start ≤ p) : (e.clip lo hi).byteAt p = e.byteAt p := by
  have hle := e.slice.lo_le_hi
  simp only [byteAt, clip, ValueByte.mk.injEq, true_and]
  omega

theorem contains_clip (h : e.Overlaps lo hi) : (e.clip lo hi).Contains p ↔ e.Contains p ∧ lo ≤ p ∧ p < hi := by
  by_cases hlt : lo < hi
  · rw [Contains, start_clip _ h.1, stop_clip h hlt, Contains]
    omega
  · -- an entry clipped to an empty range stands at its start and is empty
    have hempty : (e.clip lo hi).stop = (e.clip lo hi).start := by
      rw [stop_eq]
      simp only [clip]
      omega
    rw [Contains, hempty]
    omega

theorem ext_range {e f : Entry} (hsource : e.slice.source = f.slice.source) (hstart : e.start = f.start)
    (hstop : e.stop = f.stop) (hlo : e.slice.lo.bytes = f.slice.lo.bytes) : e = f := by
  have hhi : e.slice.hi.bytes = f.slice.hi.bytes := by
    have := e.slice.lo_le_hi
    have := f.slice.lo_le_hi
    rw [stop_eq, stop_eq] at hstop
    omega
  obtain ⟨start, source, lo, hi, _⟩ := e
  obtain ⟨start', source', lo', hi', _⟩ := f
  obtain rfl : start = start' := hstart
  obtain rfl : source = source' := hsource
  obtain rfl : lo = lo' := Width.ext hlo
  obtain rfl : hi = hi' := Width.ext hhi
  rfl

theorem eq_clip (h : e.Overlaps lo hi) (hlt : lo < hi) (hsource : f.slice.source = e.slice.source)
    (hstart : f.start = max e.start lo) (hstop : f.stop = min e.stop hi)
    (hlo : f.slice.lo.bytes = e.slice.lo.bytes + (f.start - e.start)) : f = e.clip lo hi := by
  apply ext_range
  · exact hsource
  · rw [hstart, start_clip _ h.1]
  · rw [hstop, stop_clip h hlt]
  · rw [hlo, lo_clip, hstart, start_clip _ h.1]

theorem clip_self (h : e.Overlaps lo hi) (hlt : lo < hi) (hlo : lo ≤ e.start) (hhi : e.stop ≤ hi) :
    e.clip lo hi = e := by
  symm
  refine eq_clip h hlt rfl ?_ ?_ ?_
  · omega
  · omega
  · omega

theorem upTo_eq (hlo : e.start < a) (hhi : a ≤ e.stop) (hbefore : lo ≤ e.start) :
    e.upTo a = .ok (e.clip lo a) := by
  have hle := e.slice.lo_le_hi
  have hfits := e.slice.hi.fits
  have hstop := e.stop_eq
  have hlen : a - e.start ≤ e.slice.width.bytes := by simp only [Slice.width]; omega
  have hfit : a - e.start < 2 ^ 32 := by omega
  have hslice : e.slice.low ⟨a - e.start, hfit⟩ = .ok _ := dif_pos hlen
  rw [upTo, Address.widthOf_ok hfit]
  simp only [bind, Except.bind, hslice]
  apply congrArg Except.ok
  refine eq_clip ⟨by omega, hlo⟩ (by omega) ?_ ?_ ?_ ?_
  · rfl
  · simp only
    omega
  · rw [stop_eq]
    simp only
    omega
  · simp only
    omega

theorem onward_eq (hlo : e.start ≤ a) (hhi : a < e.stop) (hafter : e.stop ≤ hi) :
    e.onward a = .ok (e.clip a hi) := by
  have hle := e.slice.lo_le_hi
  have hfits := e.slice.hi.fits
  have hstop := e.stop_eq
  have hlen : e.stop - a ≤ e.slice.width.bytes := by simp only [Slice.width]; omega
  have hfit : e.stop - a < 2 ^ 32 := by omega
  have hslice : e.slice.high ⟨e.stop - a, hfit⟩ = .ok _ := if_pos hlen
  rw [onward, Address.widthOf_ok hfit]
  simp only [bind, Except.bind, hslice]
  apply congrArg Except.ok
  refine eq_clip ⟨hhi, by omega⟩ (by omega) ?_ ?_ ?_ ?_
  · rfl
  · simp only
    omega
  · rw [stop_eq]
    simp only
    omega
  · simp only
    omega

theorem clip_clip {lo' hi' : Nat} (h : e.Overlaps lo hi) (hlt : lo < hi) (h' : (e.clip lo hi).Overlaps lo' hi')
    (hlt' : lo' < hi') : (e.clip lo hi).clip lo' hi' = e.clip (max lo lo') (min hi hi') := by
  have hstart := start_clip hi h.1
  have hstop := stop_clip h hlt
  have hstart' := start_clip hi' h'.1
  have hstop' := stop_clip h' hlt'
  obtain ⟨hlo, hhi⟩ := h
  obtain ⟨hlo', hhi'⟩ := h'
  refine eq_clip ⟨by omega, by omega⟩ (by omega) ?_ ?_ ?_ ?_
  · rfl
  · omega
  · omega
  · rw [lo_clip, lo_clip]
    omega

theorem within_eq (h : e.Overlaps lo hi) (hlt : lo < hi) : e.within lo hi = .ok (e.clip lo hi) := by
  obtain ⟨hlo, hhi⟩ := h
  by_cases hstart : e.start < lo
  · have hover : e.Overlaps lo e.stop := ⟨hlo, by omega⟩
    have hfirst := start_clip e.stop hlo
    have hlast := stop_clip hover hlo
    rw [within, if_pos hstart, onward_eq (Nat.le_of_lt hstart) hlo (Nat.le_refl _)]
    change (if hi < (e.clip lo e.stop).stop then (e.clip lo e.stop).upTo hi else pure (e.clip lo e.stop)) = _
    split
    · have hrest : (e.clip lo e.stop).Overlaps lo hi := ⟨by omega, by omega⟩
      rw [upTo_eq (by omega) (by omega) (show lo ≤ (e.clip lo e.stop).start by omega),
        clip_clip hover hlo hrest hlt, Nat.max_self, Nat.min_eq_right (by omega)]
    · apply congrArg Except.ok
      refine eq_clip ⟨hlo, hhi⟩ hlt ?_ hfirst ?_ (lo_clip e lo e.stop)
      · rfl
      · omega
  · rw [within, if_neg hstart]
    change (if hi < e.stop then e.upTo hi else pure e) = _
    split
    · exact upTo_eq hhi (by omega) (by omega)
    · rw [clip_self ⟨hlo, hhi⟩ hlt (by omega) (by omega)]
      rfl

def restrict (lo hi : Nat) (l : List Entry) : List Entry :=
  (l.filter (fun e => decide (e.Overlaps lo hi))).map (clip lo hi)

theorem restrict_cons_of_overlaps (h : e.Overlaps lo hi) :
    restrict lo hi (e :: l) = e.clip lo hi :: restrict lo hi l := by
  rw [restrict, List.filter_cons, if_pos (decide_eq_true h), List.map_cons]
  rfl

theorem restrict_cons_of_not (h : ¬ e.Overlaps lo hi) : restrict lo hi (e :: l) = restrict lo hi l := by
  rw [restrict, List.filter_cons, if_neg (by simpa using h)]
  rfl

theorem restrict_append : restrict lo hi (l ++ m) = restrict lo hi l ++ restrict lo hi m := by
  rw [restrict, List.filter_append, List.map_append]
  rfl

theorem mem_restrict : f ∈ restrict lo hi l ↔ ∃ e ∈ l, e.Overlaps lo hi ∧ e.clip lo hi = f := by
  simp [restrict, and_assoc]

theorem restrict_eq_nil (h : ∀ e ∈ l, ¬ e.Overlaps lo hi) : restrict lo hi l = [] := by
  rw [restrict, List.filter_eq_nil_iff.2 (fun e he => by simpa using h e he), List.map_nil]

theorem restrict_eq_self (h : ∀ e ∈ l, e.start < e.stop) (hlo : ∀ e ∈ l, lo ≤ e.start)
    (hhi : ∀ e ∈ l, e.stop ≤ hi) : restrict lo hi l = l := by
  induction l with
  | nil => rfl
  | cons e l ih =>
    have hne := h e (by simp)
    have he := hlo e (by simp)
    have he' := hhi e (by simp)
    have hover : e.Overlaps lo hi := ⟨by omega, by omega⟩
    rw [restrict_cons_of_overlaps hover, clip_self hover (by omega) he he',
      ih (fun f hf => h f (.tail _ hf)) (fun f hf => hlo f (.tail _ hf)) fun f hf => hhi f (.tail _ hf)]

theorem bounds_of_mem_restrict (h : Ordered l) (hlt : ∀ e ∈ l, e.Overlaps lo hi → lo < hi)
    (hf : f ∈ restrict lo hi l) : lo ≤ f.start ∧ f.start < f.stop ∧ f.stop ≤ hi := by
  obtain ⟨e, he, hover, rfl⟩ := mem_restrict.1 hf
  have hne := h.nonempty e he
  have hlt := hlt e he hover
  obtain ⟨hlo, hhi⟩ := hover
  rw [start_clip _ hlo, stop_clip ⟨hlo, hhi⟩ hlt]
  omega

theorem ordered_restrict (h : Ordered l) (hlt : ∀ e ∈ l, e.Overlaps lo hi → lo < hi) :
    Ordered (restrict lo hi l) where
  nonempty := fun f hf => (bounds_of_mem_restrict h hlt hf).2.1
  ascending := by
    apply List.pairwise_map.2
    refine (h.ascending.sublist List.filter_sublist).imp_of_mem fun {e f} he hf hef => ?_
    obtain ⟨he, hover⟩ := List.mem_filter.1 he
    have hover := of_decide_eq_true hover
    have hover' := of_decide_eq_true (List.mem_filter.1 hf).2
    rw [stop_clip hover (hlt e he hover), start_clip _ hover'.1]
    omega
  bounded := by
    intro f hf
    obtain ⟨e, he, hover, rfl⟩ := mem_restrict.1 hf
    have hlast := h.bounded e he
    rw [stop_clip hover (hlt e he hover)]
    omega

theorem held_restrict : held (restrict lo hi l) p = if lo ≤ p ∧ p < hi then held l p else none := by
  induction l with
  | nil => simp [restrict, held]
  | cons e l ih =>
    rw [held_cons]
    by_cases hover : e.Overlaps lo hi
    · rw [restrict_cons_of_overlaps hover, held_cons, ih]
      by_cases hp : lo ≤ p ∧ p < hi
      · by_cases he : e.Contains p
        · rw [if_pos ((contains_clip hover).2 ⟨he, hp⟩), if_pos hp, if_pos he, byteAt_clip hp.1 he.1]
        · rw [if_neg (fun hc => he ((contains_clip hover).1 hc).1), if_pos hp, if_pos hp, if_neg he]
      · rw [if_neg (fun hc => hp ((contains_clip hover).1 hc).2), if_neg hp, if_neg hp]
    · rw [restrict_cons_of_not hover, ih]
      by_cases hp : lo ≤ p ∧ p < hi
      · have he : ¬ e.Contains p := by
          intro hc
          apply hover
          exact ⟨by have := hc.2; omega, by have := hc.1; omega⟩
        rw [if_pos hp, if_pos hp, if_neg he]
      · rw [if_neg hp, if_neg hp]

theorem lt_of_overlaps_zero (h : e.Overlaps 0 hi) : 0 < hi := Nat.lt_of_le_of_lt (Nat.zero_le _) h.2

theorem Ordered.lt_of_overlaps_last (h : Ordered l) (he : e ∈ l) (hover : e.Overlaps lo Address.last) :
    lo < Address.last :=
  Nat.lt_of_lt_of_le hover.1 (h.bounded e he)

end Entry

end LayeredMemory
