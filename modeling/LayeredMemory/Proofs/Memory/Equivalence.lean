import LayeredMemory.Proofs.Memory.History

namespace LayeredMemory

structure Equivalent {μ ν : Type} [Device μ] [Device ν] (stored : List Expr) (m : μ) (n : ν) : Prop where
  blocks : Device.blocks m = Device.blocks n
  missing : ∀ a w, a + w.bytes ≤ Address.last →
    ∃ s, Device.missing m a w = .ok s ∧ Device.missing n a w = .ok s
  load : ∀ a w, a + w.bytes ≤ Address.last →
    ∃ r t, (Device.load m a w).outcome = .ok r ∧ (Device.load n a w).outcome = .ok t ∧ (r.isSome ↔ t.isSome) ∧
      ∀ e f, r = some e → t = some f → ∀ bind, (∀ v ∈ stored, v.BoundBy bind) →
        ∃ c, e.evaluate bind = some c ∧ f.evaluate bind = some c

theorem Constant.ext_of_getElem?_bytes {c d : Constant} (hw : c.width = d.width)
    (h : ∀ i < c.width.bytes, c.bytes.data[i]? = d.bytes.data[i]?) : c = d := by
  apply Constant.ext_of_byte hw
  intro i hi
  have hbyte := h i hi
  rw [Constant.getElem?_bytes, Constant.getElem?_bytes, ← hw, if_pos hi, if_pos hi] at hbyte
  exact Option.some.inj hbyte

section

variable {μ ν : Type} [Device μ] [Device ν] {m : μ} {n : ν} {held held' : Contents} {stored : List Expr}
  {last : Nat → Option Write}

theorem Follows.equivalent (h : Follows stored held last) (h' : Follows stored held' last)
    (hm : Answers m held) (hn : Answers n held') : Equivalent stored m n := by
  have hblocks : Device.blocks m = Device.blocks n := by
    apply IntervalSet.ext_of_mem
    intro p
    rw [hm.mem_blocks, hn.mem_blocks, h.present, h'.present]
  constructor
  · exact hblocks
  · intro a w hlast
    refine ⟨_, hm.missing_eq hlast, ?_⟩
    rw [hblocks]
    exact hn.missing_eq hlast
  · intro a w hlast
    by_cases hw : 0 < w.bytes
    · obtain ⟨r, hr, hsome, hvalue⟩ := h.load hm hw hlast
      obtain ⟨t, ht, hsome', hvalue'⟩ := h'.load hn hw hlast
      refine ⟨r, t, hr, ht, hsome.trans hsome'.symm, fun e f he hf bind hbind => ?_⟩
      obtain ⟨c, hc, hcw, hread⟩ := (hvalue e he).2 bind hbind
      obtain ⟨d, hd, hdw, hread'⟩ := (hvalue' f hf).2 bind hbind
      have hsame : c = d := by
        apply Constant.ext_of_getElem?_bytes (hcw.trans hdw.symm)
        intro i hi
        rw [hcw] at hi
        obtain ⟨s, u, hs, hu, hcu⟩ := hread (a + i) (by omega) (by omega)
        obtain ⟨s', u', hs', hu', hdu⟩ := hread' (a + i) (by omega) (by omega)
        obtain rfl := Option.some.inj (hs.symm.trans hs')
        rw [Nat.add_sub_cancel_left] at hcu hdu
        rw [hcu, hdu, ← hu, ← hu']
      rw [← hsame] at hd
      exact ⟨c, hc, hd⟩
    · have hzero : w.bytes = 0 := by omega
      refine ⟨none, none, hm.load_zero a w hzero (by omega), hn.load_zero a w hzero (by omega), Iff.rfl, ?_⟩
      intro e f he
      cases he

end

def storeAll {μ : Type} [Device μ] (m : μ) (writes : List Write) : Traced Fault μ :=
  writes.foldlM (fun m s => (Device.store m s.start s.value s.width).result) m

theorem storeAll_keeps {μ : Type} [Device μ] {stored : List Expr} (keeps : μ → (Nat → Option Write) → Prop)
    (hstore : ∀ m last (s : Write), keeps m last → s.value ∈ stored →
      (Device.store m s.start s.value s.width).report.outcome = .ok () →
        keeps (Device.store m s.start s.value s.width).state (s.record last))
    {m m' : μ} {last : Nat → Option Write} {writes : List Write} (h : keeps m last)
    (hin : ∀ s ∈ writes, s.value ∈ stored) (hrun : (storeAll m writes).outcome = .ok m') :
    keeps m' (writes.foldl (fun last s => s.record last) last) := by
  induction writes generalizing m last with
  | nil =>
    obtain rfl := Except.ok.inj hrun
    exact h
  | cons s writes ih =>
    rw [storeAll, List.foldlM_cons] at hrun
    cases hresult : (Device.store m s.start s.value s.width).result.outcome with
    | error e =>
      rw [Traced.outcome_bind_error hresult] at hrun
      cases hrun
    | ok m₁ =>
      rw [Traced.outcome_bind_ok hresult] at hrun
      obtain ⟨hok, rfl⟩ := Step.outcome_result_iff.1 hresult
      exact ih (hstore m last s h (hin s (by simp)) hok) (fun t ht => hin t (.tail _ ht)) hrun

variable {stored : List Expr} {writes : List Write} {last : Nat → Option Write}

theorem SparseLayer.storeAll_follows {m m' : SparseLayer} (h : m.Valid) (hf : Follows stored m.held last)
    (hin : ∀ s ∈ writes, s.value ∈ stored) (hrun : (storeAll m writes).outcome = .ok m') :
    m'.Valid ∧ Follows stored m'.held (writes.foldl (fun last s => s.record last) last) := by
  apply storeAll_keeps (fun m last => m.Valid ∧ Follows stored m.held last) _ ⟨h, hf⟩ hin hrun
  intro m last s hm hs hok
  obtain ⟨hvalid, hlast⟩ := store_follows hm.1 hm.2 hok
  exact ⟨hvalid, hlast.mono (List.cons_subset.2 ⟨hs, fun _ hv => hv⟩)⟩

theorem Memory.storeAll_follows {m m' : Memory Empty} {layers : Layers} (h : Tracks stored m layers)
    (hin : ∀ s ∈ writes, s.value ∈ stored) (hrun : (storeAll m writes).outcome = .ok m') :
    m'.Valid ∧ Follows stored m'.held (writes.foldl (fun last s => s.record last) layers.lastWrite) := by
  obtain ⟨layers', htracks, hlast⟩ := storeAll_keeps
    (fun m last => ∃ layers, Tracks stored m layers ∧ layers.lastWrite = last) (by
      rintro m last s ⟨layers, htracks, rfl⟩ hs hok
      refine ⟨layers.store s, (htracks.store hok).mono (List.cons_subset.2 ⟨hs, fun _ hv => hv⟩), ?_⟩
      funext p
      exact Layers.lastWrite_store s layers p) ⟨layers, h, rfl⟩ hin hrun
  rw [← hlast]
  exact ⟨htracks.valid, htracks.follows⟩

end LayeredMemory
