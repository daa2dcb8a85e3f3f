import LayeredMemory.Proofs.Expr.Composition
import LayeredMemory.Proofs.Outcome

namespace LayeredMemory.Slice

variable {v : Expr} {s t p : Slice} {parts : List Slice} {lo hi i j base : Nat} {bind : Binding} {c : Constant}

inductive Cut
  | low (length : Width)
  | high (length : Width)

def Cut.bounds (i j : Nat) : List Cut → Option (Nat × Nat)
  | [] => some (i, j)
  | low length :: cuts => if length.bytes ≤ j - i then bounds i (i + length.bytes) cuts else none
  | high length :: cuts => if length.bytes ≤ j - i then bounds (j - length.bytes) j cuts else none

def cut (s : Slice) : Cut → Except Fault Slice
  | .low length => s.low length
  | .high length => s.high length

def cutAll (s : Slice) (cuts : List Cut) : Except Fault Slice := cuts.foldlM cut s

theorem eq_of_bounds (hsource : s.source = t.source) (hlo : s.lo.bytes = t.lo.bytes) (hhi : s.hi.bytes = t.hi.bytes) :
    s = t := by
  obtain ⟨source, lo, hi, hle⟩ := s
  obtain ⟨source', lo', hi', hle'⟩ := t
  obtain rfl : source = source' := hsource
  obtain rfl : lo = lo' := Width.ext hlo
  obtain rfl : hi = hi' := Width.ext hhi
  rfl

theorem low_ok {length : Width} (h : length.bytes ≤ s.hi.bytes - s.lo.bytes) :
    ∃ t, s.low length = .ok t ∧ t.source = s.source ∧ t.lo.bytes = s.lo.bytes ∧
      t.hi.bytes = s.lo.bytes + length.bytes :=
  ⟨_, dif_pos h, rfl, rfl, rfl⟩

theorem high_ok {length : Width} (h : length.bytes ≤ s.hi.bytes - s.lo.bytes) :
    ∃ t, s.high length = .ok t ∧ t.source = s.source ∧ t.lo.bytes = s.hi.bytes - length.bytes ∧
      t.hi.bytes = s.hi.bytes :=
  ⟨_, if_pos h, rfl, rfl, rfl⟩

theorem cutAll_cons {cuts : List Cut} {first : Cut} (h : s.cut first = .ok t) :
    s.cutAll (first :: cuts) = t.cutAll cuts := by
  rw [cutAll, List.foldlM_cons, h]
  rfl

theorem cutAll_ok {cuts : List Cut} (h : Cut.bounds s.lo.bytes s.hi.bytes cuts = some (i, j)) :
    ∃ t, s.cutAll cuts = .ok t ∧ t.source = s.source ∧ t.lo.bytes = i ∧ t.hi.bytes = j ∧ j ≤ s.hi.bytes := by
  induction cuts generalizing s with
  | nil =>
    obtain ⟨rfl, rfl⟩ := Prod.mk.inj (Option.some.inj h)
    exact ⟨s, rfl, rfl, rfl, rfl, Nat.le_refl _⟩
  | cons first cuts ih =>
    have hle := s.lo_le_hi
    cases first with
    | low length =>
      rw [Cut.bounds] at h
      split at h
      · rename_i hlength
        obtain ⟨t, ht, hsource, hlo, hhi⟩ := low_ok hlength
        have hcut : s.cut (.low length) = .ok t := ht
        rw [← hhi, ← hlo] at h
        obtain ⟨u, hu, hsource', hlo', hhi', hbound⟩ := ih h
        exact ⟨u, (cutAll_cons hcut).trans hu, hsource'.trans hsource, hlo', hhi', by omega⟩
      · cases h
    | high length =>
      rw [Cut.bounds] at h
      split at h
      · rename_i hlength
        obtain ⟨t, ht, hsource, hlo, hhi⟩ := high_ok hlength
        have hcut : s.cut (.high length) = .ok t := ht
        rw [← hlo, ← hhi] at h
        obtain ⟨u, hu, hsource', hlo', hhi', hbound⟩ := ih h
        exact ⟨u, (cutAll_cons hcut).trans hu, hsource'.trans hsource, hlo', hhi', by omega⟩
      · cases h

theorem exists_cuts (hsource : p.source = s.source) (hlo : s.lo.bytes ≤ p.lo.bytes) (hhi : p.hi.bytes ≤ s.hi.bytes) :
    ∃ cuts, s.cutAll cuts = .ok p := by
  have hle := p.lo_le_hi
  have hfits := p.hi.fits
  have hbounds : Cut.bounds s.lo.bytes s.hi.bytes [.low ⟨p.hi.bytes - s.lo.bytes, by omega⟩, .high p.width] =
      some (p.lo.bytes, p.hi.bytes) := by
    have hwidth : p.width.bytes = p.hi.bytes - p.lo.bytes := rfl
    simp only [Cut.bounds, hwidth]
    rw [if_pos (by omega), if_pos (by omega)]
    congr 2
    · omega
    · omega
  obtain ⟨t, ht, hsource', hlo', hhi', -⟩ := cutAll_ok hbounds
  exact ⟨_, ht.trans (congrArg Except.ok (eq_of_bounds (hsource'.trans hsource.symm) hlo' hhi'))⟩

inductive EndToEnd (source : Expr) (j : Nat) : Nat → List Slice → Prop
  | nil : EndToEnd source j j []
  | cons {p : Slice} {rest : List Slice} (hsource : p.source = source) (hne : p.lo.bytes < p.hi.bytes)
    (hrest : EndToEnd source j p.hi.bytes rest) : EndToEnd source j p.lo.bytes (p :: rest)

namespace EndToEnd

theorem le (h : EndToEnd v j i parts) : i ≤ j := by
  induction h with
  | nil => exact Nat.le_refl j
  | cons _ hne _ ih => omega

theorem of_mem (h : EndToEnd v j i parts) (hp : p ∈ parts) :
    p.source = v ∧ i ≤ p.lo.bytes ∧ p.lo.bytes < p.hi.bytes ∧ p.hi.bytes ≤ j := by
  induction h with
  | nil => cases hp
  | cons hsource hne hrest ih =>
    rcases List.mem_cons.1 hp with rfl | hp
    · exact ⟨hsource, Nat.le_refl _, hne, hrest.le⟩
    · have := ih hp
      exact ⟨this.1, by omega, this.2.2⟩

end EndToEnd

def recompose (s : Slice) (base : Nat) (parts : List Slice) : Except Fault (Option Expr) := do
  let pieces ← parts.mapM fun p => do return (base + (p.lo.bytes - s.lo.bytes), ← p.expr)
  compose base s.width pieces

def toPiece (base first : Nat) (p : Slice) : Piece := (base + (p.lo.bytes - first), p.shifted.resized p.width)

theorem width_toPiece (base first : Nat) (p : Slice) : (p.toPiece base first).2.width = p.width :=
  Expr.width_resized _ _

theorem recompose_eq (hparts : ∀ p ∈ parts, p.lo.bytes < p.hi.bytes) :
    s.recompose base parts = compose base s.width (parts.map (toPiece base s.lo.bytes)) := by
  have hpieces : (parts.mapM fun p => do return (base + (p.lo.bytes - s.lo.bytes), ← p.expr)) =
      .ok (parts.map (toPiece base s.lo.bytes)) := by
    apply Except.mapM_ok
    intro p hp
    rw [expr_eq (hparts p hp)]
    rfl
  rw [recompose, hpieces]
  rfl

theorem EndToEnd.tiles (h : EndToEnd v j i parts) (hlo : lo ≤ i) :
    Tiles (base + (j - lo)) (base + (i - lo)) (parts.map (toPiece base lo)) := by
  induction h with
  | nil => rfl
  | @cons p rest _ hne _ ih =>
    have hwidth : p.width.bytes = p.hi.bytes - p.lo.bytes := rfl
    have hnext : base + (p.lo.bytes - lo) + p.width.bytes = base + (p.hi.bytes - lo) := by omega
    refine ⟨rfl, ?_, ?_⟩
    · change 0 < (p.toPiece base lo).2.width.bytes
      rw [width_toPiece]
      omega
    · change Tiles _ (_ + (p.toPiece base lo).2.width.bytes) _
      rw [width_toPiece, hnext]
      exact ih (by omega)

def laidOut (c : Constant) (lo base : Nat) : Nat → Option UInt8 := fun q => some (c.byte (lo + (q - base)))

theorem laidOut_add (c : Constant) (lo base k : Nat) : laidOut c lo base (base + k) = some (c.byte (lo + k)) := by
  rw [laidOut, Nat.add_sub_cancel_left]

theorem shows_toPiece (hc : p.source.evaluate bind = some c) (hlo : lo ≤ p.lo.bytes) :
    (p.toPiece base lo).Shows bind (laidOut c lo base) := by
  obtain ⟨d, hd, hbytes⟩ := evaluate_expr hc
  refine ⟨d, hd, fun k => ?_⟩
  have hstart : (p.toPiece base lo).1 = base + (p.lo.bytes - lo) := rfl
  have hoffset : lo + (p.lo.bytes - lo + k) = p.lo.bytes + k := by omega
  rw [width_toPiece, hstart, hbytes, Nat.add_assoc, laidOut_add, hoffset]
  by_cases hk : k < p.width.bytes
  · rw [if_pos ⟨by omega, by omega⟩, if_pos hk]
  · rw [if_neg (by omega), if_neg hk]

theorem evaluate_recompose (h : EndToEnd s.source s.hi.bytes s.lo.bytes parts) (hs : s.lo.bytes < s.hi.bytes)
    (base : Nat) :
    ∃ e, s.recompose base parts = .ok (some e) ∧ e.width = s.width ∧ ∀ bind, s.source.BoundBy bind →
      e.evaluate bind = (s.shifted.resized s.width).evaluate bind := by
  have hwidth : s.width.bytes = s.hi.bytes - s.lo.bytes := rfl
  have htiles : Tiles (base + (s.hi.bytes - s.lo.bytes)) (base + (s.lo.bytes - s.lo.bytes))
      (parts.map (toPiece base s.lo.bytes)) := h.tiles (Nat.le_refl _)
  rw [Nat.sub_self, Nat.add_zero, ← hwidth] at htiles
  obtain ⟨e, he, hew, hshows⟩ := compose_tiles (by omega) htiles
  refine ⟨e, ?_, hew, fun bind hbound => ?_⟩
  · rw [recompose_eq fun p hp => (h.of_mem hp).2.2.1]
    exact he
  · obtain ⟨c, hc⟩ := hbound.evaluate
    obtain ⟨d, hd, hdbytes⟩ := evaluate_expr hc
    have hpieces : ∀ q ∈ parts.map (toPiece base s.lo.bytes), q.Shows bind (laidOut c s.lo.bytes base) := by
      intro q hq
      obtain ⟨p, hp, rfl⟩ := List.mem_map.1 hq
      obtain ⟨hsource, hlo, -, -⟩ := h.of_mem hp
      exact shows_toPiece (hsource ▸ hc) hlo
    obtain ⟨d', hd', hbytes'⟩ := hshows bind _ hpieces
    have hdw : d.width = s.width := (Expr.width_of_evaluate hd).trans (Expr.width_resized _ _)
    have hdw' : d'.width = s.width := (Expr.width_of_evaluate hd').trans hew
    have heq : d' = d := by
      apply Constant.ext_of_byte (hdw'.trans hdw.symm)
      intro k hk
      rw [hdw'] at hk
      have hk' := hbytes' k
      rw [if_pos ⟨Nat.le_add_right _ _, by omega⟩, laidOut_add] at hk'
      rw [hdbytes, if_pos hk]
      exact (Option.some.inj hk').symm
    rw [hd, hd', heq]

theorem bytes_of_evaluate_expr {d : Constant} {w : Width} (hc : s.source.evaluate bind = some c)
    (hd : (s.shifted.resized s.width).evaluate bind = some d) (hw : s.hi.bytes ≤ w.bytes) :
    d.bytes = (c.resize w).bytes.extract s.lo.bytes s.hi.bytes := by
  obtain ⟨d', hd', hbytes⟩ := evaluate_expr hc
  obtain rfl : d = d' := Option.some.inj (hd.symm.trans hd')
  have hdw : d.width = s.width := (Expr.width_of_evaluate hd).trans (Expr.width_resized _ _)
  have hwidth : s.width.bytes = s.hi.bytes - s.lo.bytes := rfl
  have hsize : (c.resize w).bytes.data.size = w.bytes := Constant.size_bytes _
  apply ByteArray.ext
  apply Array.ext_getElem?
  intro k
  rw [Constant.getElem?_bytes, hdw, hbytes, ByteArray.data_extract, Array.getElem?_extract, hsize,
    Nat.min_eq_left hw, Constant.getElem?_bytes, Constant.width_resize, Constant.byte_resize]
  by_cases hk : k < s.width.bytes
  · rw [if_pos hk, if_pos hk, if_pos (by omega), if_pos (by omega), if_pos (by omega)]
  · rw [if_neg hk, if_neg (by omega)]

/-- Bytes of the store behind the end of the value count as zeros, for the slices as for what they compose to. -/
theorem cut_then_compose (v : Expr) (w : Width) {cuts : List Cut} (hcuts : Cut.bounds 0 w.bytes cuts = some (i, j))
    (hij : i < j) :
    ∃ s e, (full v w).cutAll cuts = .ok s ∧ s.source = v ∧ s.lo.bytes = i ∧ s.hi.bytes = j ∧ s.expr = .ok e ∧
      e.width.bytes = j - i ∧
      (∀ bind, v.BoundBy bind → ∃ c d, v.evaluate bind = some c ∧ e.evaluate bind = some d ∧
        d.bytes = (c.resize w).bytes.extract i j ∧ ∀ k, v.width.bytes ≤ k → (c.resize w).byte k = 0) ∧
      ∀ parts, EndToEnd v j i parts → (∀ p ∈ parts, ∃ cuts, s.cutAll cuts = .ok p) ∧
        ∀ base, ∃ e', s.recompose base parts = .ok (some e') ∧ e'.width.bytes = j - i ∧
          ∀ bind, v.BoundBy bind → e'.evaluate bind = e.evaluate bind := by
  obtain ⟨s, hs, rfl, rfl, rfl, hbound⟩ := cutAll_ok (s := full v w) hcuts
  refine ⟨s, s.shifted.resized s.width, hs, rfl, rfl, rfl, expr_eq hij, ?_, ?_, ?_⟩
  · rw [Expr.width_resized]
    rfl
  · intro bind hbind
    obtain ⟨c, hc⟩ := hbind.evaluate
    obtain ⟨d, hd, -⟩ := evaluate_expr hc
    refine ⟨c, d, hc, hd, bytes_of_evaluate_expr hc hd hbound, fun k hk => ?_⟩
    have hzero : c.byte k = 0 := Constant.byte_eq_zero (by rw [Expr.width_of_evaluate hc]; exact hk)
    rw [Constant.byte_resize, hzero, ite_self]
  · intro parts hparts
    refine ⟨fun p hp => ?_, fun base => ?_⟩
    · obtain ⟨hsource, hlo, -, hhi⟩ := hparts.of_mem hp
      exact exists_cuts hsource hlo hhi
    · obtain ⟨e, he, hew, hsame⟩ := evaluate_recompose hparts hij base
      exact ⟨e, he, congrArg Width.bytes hew, hsame⟩

/-- Four bytes across the end of a symbol that was stored at twice its width. -/
theorem cut_then_compose_over_end :
    let v : Expr := .symbol "x" .w32
    let bind : Binding := fun _ => some (.ofNat .w32 0x44332211)
    let cuts : List Cut := [.high ⟨6, by decide⟩, .low .w32]
    let parts : List Slice := [⟨v, .w16, ⟨3, by decide⟩, by decide⟩, ⟨v, ⟨3, by decide⟩, ⟨6, by decide⟩, by decide⟩]
    Cut.bounds 0 Width.w64.bytes cuts = some (2, 6) ∧ 2 < 6 ∧ v.BoundBy bind ∧ EndToEnd v 6 2 parts ∧
      ∃ s e e' c d, (full v .w64).cutAll cuts = .ok s ∧ s.expr = .ok e ∧ v.evaluate bind = some c ∧
        e.evaluate bind = some d ∧ d.bytes = (c.resize .w64).bytes.extract 2 6 ∧
        s.recompose 100 parts = .ok (some e') ∧ e'.evaluate bind = some d := by
  intro v bind cuts parts
  have hbounds : Cut.bounds 0 Width.w64.bytes cuts = some (2, 6) := rfl
  have hbind : v.BoundBy bind := fun _ _ => rfl
  have hparts : EndToEnd v 6 2 parts := by
    refine .cons (p := ⟨v, .w16, ⟨3, by decide⟩, by decide⟩) rfl (by decide) ?_
    exact .cons (p := ⟨v, ⟨3, by decide⟩, ⟨6, by decide⟩, by decide⟩) rfl (by decide) .nil
  obtain ⟨s, e, hs, -, -, -, he, -, hvalue, hcompose⟩ := cut_then_compose v .w64 hbounds (by decide)
  obtain ⟨c, d, hc, hd, hbytes, -⟩ := hvalue bind hbind
  obtain ⟨e', he', -, hsame⟩ := (hcompose parts hparts).2 100
  exact ⟨hbounds, by decide, hbind, hparts, s, e, e', c, d, hs, he, hc, hd, hbytes, he', (hsame bind hbind).trans hd⟩

end LayeredMemory.Slice
