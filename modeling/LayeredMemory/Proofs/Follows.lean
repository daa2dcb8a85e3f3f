import LayeredMemory.Proofs.Write

/-!
Contents follow the last writes at all addresses if they hold the same addresses and, under every binding for
the stored values, the same bytes. What a load gives can then be read off the last writes.
-/

namespace LayeredMemory

def Binds (bind : Binding) (stored : List Expr) : Prop := ∀ v ∈ stored, v.BoundBy bind

theorem Binds.mono {bind : Binding} {stored stored' : List Expr} (h : Binds bind stored')
    (hsub : ∀ v ∈ stored, v ∈ stored') : Binds bind stored :=
  fun v hv => h v (hsub v hv)

structure Follows (stored : List Expr) (held : Contents) (last : Nat → Option Write) : Prop where
  present : ∀ p, (held p).isSome ↔ (last p).isSome
  byte : ∀ bind, Binds bind stored → ∀ p s, last p = some s →
    ∃ u, s.byte? bind p = some u ∧ held.under bind p = some u

theorem Expr.BoundBy.byte? {s : Write} {bind : Binding} {p : Nat} (h : s.value.BoundBy bind) (hp : s.Covers p) :
    ∃ c, s.value.evaluate bind = some c ∧ s.byte? bind p = some (c.byte (p - s.start)) := by
  obtain ⟨c, hc⟩ := h.evaluate
  refine ⟨c, hc, ?_⟩
  rw [Write.byte?_eq_under hp, Write.byteAt, ValueByte.under, hc]
  rfl

namespace Follows

variable {stored stored' : List Expr} {held held' low high : Contents} {last below above : Nat → Option Write}

theorem empty : Follows stored Contents.empty (fun _ => none) := by
  constructor
  · intro p
    rfl
  · intro bind hbind p s hs
    cases hs

theorem mono (h : Follows stored held last) (hsub : ∀ v ∈ stored, v ∈ stored') : Follows stored' held last := by
  constructor
  · exact h.present
  · intro bind hbind
    exact h.byte bind (hbind.mono hsub)

theorem bytes_of_isSome (h : Follows stored held last) {bind : Binding} (hbind : Binds bind stored) {p : Nat}
    (hp : (held p).isSome) :
    ∃ s u, last p = some s ∧ s.byte? bind p = some u ∧ held.under bind p = some u := by
  obtain ⟨s, hs⟩ := Option.isSome_iff_exists.1 ((h.present p).1 hp)
  obtain ⟨u, hu, hheld⟩ := h.byte bind hbind p s hs
  exact ⟨s, u, hs, hu, hheld⟩

theorem eq_none_iff (h : Follows stored held last) (p : Nat) : held p = none ↔ last p = none := by
  rw [← Option.not_isSome_iff_eq_none, h.present, Option.not_isSome_iff_eq_none]

theorem onto (hhigh : Follows stored high above) (hlow : Follows stored low below) :
    Follows stored (high.onto low) (fun p => (above p).or (below p)) := by
  constructor
  · intro p
    rw [Contents.onto, Option.isSome_or, Option.isSome_or, Bool.or_eq_true, Bool.or_eq_true]
    exact or_congr (hhigh.present p) (hlow.present p)
  · intro bind hbind p s hs
    cases habove : above p with
    | none =>
      rw [habove, Option.none_or] at hs
      have hunder : (high.onto low).under bind p = low.under bind p := by
        rw [Contents.under, Contents.onto, (hhigh.eq_none_iff p).2 habove]
        rfl
      rw [hunder]
      exact hlow.byte bind hbind p s hs
    | some t =>
      rw [habove, Option.some_or] at hs
      have hsome : (high p).isSome := (hhigh.present p).2 (by rw [habove]; rfl)
      obtain ⟨b, hb⟩ := Option.isSome_iff_exists.1 hsome
      have hunder : (high.onto low).under bind p = high.under bind p := by
        rw [Contents.under, Contents.onto, Contents.under, hb]
        rfl
      rw [hunder]
      exact hhigh.byte bind hbind p s (habove.trans hs)

theorem record (h : Follows stored held last) (s : Write)
    (hin : ∀ p, s.Covers p → (held' p).isSome ∧
      ∀ bind, s.value.BoundBy bind → held'.under bind p = s.byte? bind p)
    (hout : ∀ p, ¬ s.Covers p → held' p = held p) :
    Follows (s.value :: stored) held' (s.record last) := by
  constructor
  · intro p
    by_cases hp : s.Covers p
    · rw [Write.record_of_covers hp]
      exact iff_of_true (hin p hp).1 rfl
    · rw [Write.record_of_not_covers hp, hout p hp]
      exact h.present p
  · intro bind hbind p t ht
    by_cases hp : s.Covers p
    · rw [Write.record_of_covers hp] at ht
      obtain rfl := Option.some.inj ht
      have hbound : s.value.BoundBy bind := hbind _ (by simp)
      obtain ⟨c, -, hbyte⟩ := hbound.byte? hp
      rw [(hin p hp).2 bind hbound, hbyte]
      exact ⟨_, rfl, rfl⟩
    · rw [Write.record_of_not_covers hp] at ht
      have hheld : held'.under bind p = held.under bind p := by
        rw [Contents.under, Contents.under, hout p hp]
      rw [hheld]
      exact h.byte bind (hbind.mono fun v hv => .tail _ hv) p t ht

theorem write (h : Follows stored held last) (s : Write) :
    Follows (s.value :: stored) (held.write s.start s.value s.width) (s.record last) := by
  apply h.record s
  · intro p hp
    have hheld : held.write s.start s.value s.width p = some (s.byteAt p) := Write.write_of_covers hp
    refine ⟨by rw [hheld]; rfl, fun bind _ => ?_⟩
    rw [Contents.under, hheld, Write.byte?_eq_under hp]
    rfl
  · intro p hp
    exact Write.write_of_not_covers hp

variable {μ : Type} [Device μ] {m : μ} {a : Nat} {w : Width}

theorem load (h : Follows stored held last) (hm : Answers m held) (hw : 0 < w.bytes)
    (hlast : a + w.bytes ≤ Address.last) :
    ∃ r, (Device.load m a w).outcome = .ok r ∧
      (r.isSome ↔ ∀ p, a ≤ p → p < a + w.bytes → (last p).isSome) ∧
      ∀ e, r = some e → e.width = w ∧ ∀ bind, Binds bind stored →
        ∃ c, e.evaluate bind = some c ∧ c.width = w ∧ ∀ p, a ≤ p → p < a + w.bytes →
          ∃ s u, last p = some s ∧ s.byte? bind p = some u ∧ c.bytes.data[p - a]? = some u := by
  obtain ⟨r, hload, hsome, hreads⟩ := hm.load a w hw hlast
  have hpresent : r.isSome ↔ ∀ p, a ≤ p → p < a + w.bytes → (last p).isSome := by
    rw [hsome]
    apply forall_congr'
    intro p
    rw [h.present p]
  refine ⟨r, hload, hpresent, fun e he => ⟨(hreads e he).1, fun bind hbind => ?_⟩⟩
  have hbytes : ∀ p, a ≤ p → p < a + w.bytes →
      ∃ s u, last p = some s ∧ s.byte? bind p = some u ∧ held.under bind p = some u := by
    intro p hlo hhi
    apply h.bytes_of_isSome hbind
    exact hsome.1 (by rw [he]; rfl) p hlo hhi
  obtain ⟨c, hc, hcw, hread⟩ := (hreads e he).bytes bind fun p hlo hhi => by
    obtain ⟨-, u, -, -, hu⟩ := hbytes p hlo hhi
    rw [hu]
    rfl
  refine ⟨c, hc, hcw, fun p hlo hhi => ?_⟩
  obtain ⟨s, u, hs, hbyte, hu⟩ := hbytes p hlo hhi
  exact ⟨s, u, hs, hbyte, (hread p hlo hhi).trans hu⟩

end Follows

end LayeredMemory
