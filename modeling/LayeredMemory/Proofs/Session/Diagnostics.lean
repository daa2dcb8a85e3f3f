import LayeredMemory.Proofs.Memory.Plain
import LayeredMemory.Proofs.Session.Basic
import Mathlib.Data.List.Forall2
import Mathlib.Data.List.Sort

namespace LayeredMemory

section

variable {α β α' β' : Type} {r : α → β → Prop} {r' : α' → β' → Prop} {x : Option α} {y : Option β}

theorem eq_none_or_eq_some_of_rel (h : Option.Rel r x y) :
    (x = none ∧ y = none) ∨ ∃ a b, x = some a ∧ y = some b ∧ r a b := by
  cases h with
  | none => exact .inl ⟨rfl, rfl⟩
  | some h => exact .inr ⟨_, _, rfl, rfl, h⟩

theorem rel_bind {f : α → Option α'} {g : β → Option β'} (h : Option.Rel r x y)
    (hfg : ∀ {a b}, r a b → Option.Rel r' (f a) (g b)) : Option.Rel r' (x.bind f) (y.bind g) := by
  cases h with
  | none => exact .none
  | some h => exact hfg h

theorem rel_map {f : α → α'} {g : β → β'} (h : Option.Rel r x y) (hfg : ∀ {a b}, r a b → r' (f a) (g b)) :
    Option.Rel r' (x.map f) (y.map g) := by
  cases h with
  | none => exact .none
  | some h => exact .some (hfg h)

end

namespace Traced

variable {ε α : Type}

def quietLog (x : Traced ε α) : List Event := x.log.filter fun e => decide (e.severity ≠ .warn)

structure Agree (x y : Traced ε α) : Prop where
  outcome : x.outcome = y.outcome
  quiet : x.quietLog = y.quietLog

theorem quietLog_bind_pure {β : Type} (x : Traced ε α) (f : α → β) :
    (x >>= fun a => pure (f a)).quietLog = x.quietLog := by
  obtain ⟨log, e | a⟩ := x
  · rfl
  · rw [bind_ok, quietLog, pure_eq, List.append_nil]
    rfl

theorem Agree.of_eq {x y : Traced ε α} (h : x = y) : Agree x y := by
  rw [h]
  exact ⟨rfl, rfl⟩

end Traced

namespace Memory

variable {δ : Type}

inductive Made : Traced Failure (Memory δ) → Traced Failure (Memory δ) → Prop
  | ok {m m' : Memory δ} {x x' : Traced Failure (Memory δ)} (hx : x.outcome = .ok m) (hx' : x'.outcome = .ok m')
    (h : Alike m m') (hquiet : x.quietLog = x'.quietLog) : Made x x'
  | error {e : Failure} {x x' : Traced Failure (Memory δ)} (hx : x.outcome = .error e) (hx' : x'.outcome = .error e)
    (hquiet : x.quietLog = x'.quietLog) : Made x x'

theorem Made.image (given : List Block) (d d' : Diagnostics) :
    Made (.image <$> (ImageLayer.ofBlocks given d).mapError .refusal : Traced Failure (Memory δ))
      (.image <$> (ImageLayer.ofBlocks given d').mapError .refusal) := by
  obtain ⟨log, e, h⟩ | ⟨log, blocks, hordered, h⟩ := ImageLayer.ofBlocks_cases given
  · rw [h d, h d']
    exact .error rfl rfl rfl
  · rw [h d, h d']
    exact .ok rfl rfl ⟨hordered, hordered, rfl⟩ rfl

variable [Device δ] {m m' : Memory δ}

theorem perform_plain (h : m.Sound) (op : Operation) : m.plain.perform op = (m.perform op).inside plain := by
  cases op with
  | load a w =>
    simp only [perform, load_plain]
    rfl
  | missing a w =>
    simp only [perform, missing_plain]
    rfl
  | blocks =>
    simp only [perform, blocks_plain]
    rfl
  | depth =>
    simp only [perform, depth_plain]
    rfl
  | store path a v w =>
    simp only [perform, storeAt_plain h]
    cases m.storeAt path a v w with
    | none => rfl
    | some step => rfl
  | tryStore a v w =>
    cases m with
    | image l =>
      simp only [plain, perform, ImageLayer.tryStore_plain h]
      rfl
    | _ => rfl
  | _ => cases m <;> rfl

theorem sound_perform (h : m.Sound) (op : Operation) : (m.perform op).state.Sound := by
  cases op with
  | store path a v w =>
    simp only [perform]
    cases hstep : m.storeAt path a v w with
    | none => exact h
    | some step => exact sound_storeAt h hstep
  | tryStore a v w =>
    cases m with
    | image l => exact ImageLayer.valid_store h a v w
    | _ => exact h
  | clear =>
    cases m with
    | sparse l => exact Entry.Ordered.nil
    | _ => exact h
  | _ => cases m <;> exact h

theorem Alike.perform (h : Alike m m') (op : Operation) :
    Alike (m.perform op).state (m'.perform op).state ∧ (m.perform op).report = (m'.perform op).report :=
  h.step (fun hm => perform_plain hm op) (fun hm => sound_perform hm op)

def depthWarnings (m : Memory δ) (d : Diagnostics) : List Event :=
  if d.depthThreshold < m.depth then [.deepOverlay m.depth d.depthThreshold] else []

theorem warns_iff (m : Memory δ) (d : Diagnostics) :
    (∃ e ∈ m.depthWarnings d, e.severity = .warn) ↔ d.depthThreshold < m.depth := by
  unfold depthWarnings
  split
  · rename_i hdeep
    exact iff_of_true ⟨_, .head _, rfl⟩ hdeep
  · rename_i hflat
    apply iff_of_false _ hflat
    rintro ⟨e, he, -⟩
    cases he

theorem layered_eq {ε : Type} (base top : Memory δ) (d : Diagnostics) :
    (layered base top d : Traced ε (Memory δ)) = ⟨(overlay base top).depthWarnings d, .ok (overlay base top)⟩ := by
  unfold layered depthWarnings
  dsimp only
  split
  · rfl
  · rfl

theorem quietLog_layered {ε : Type} (base top : Memory δ) (d : Diagnostics) :
    (layered base top d : Traced ε (Memory δ)).quietLog = [] := by
  rw [layered_eq, Traced.quietLog, depthWarnings]
  dsimp only
  split
  · rfl
  · rfl

theorem Made.layered {n n' : Memory δ} (h : Alike m m') (hn : Alike n n') (d d' : Diagnostics) :
    Made (m.layered n d) (m'.layered n' d') := by
  apply Made.ok _ _ (h.overlay hn)
  · rw [quietLog_layered, quietLog_layered]
  · rw [layered_eq]
  · rw [layered_eq]

theorem Made.flattened (h : Alike m m') :
    Made (sparse <$> flatten m : Traced Failure (Memory δ)) (sparse <$> flatten m') := by
  rw [h.flatten]
  have hvalid : ∀ flat, (flatten m').outcome = .ok flat → flat.Valid := fun flat hflat =>
    (Flatten.entries_of_flatten hflat).1
  generalize flatten m' = x at hvalid
  obtain ⟨log, e | flat⟩ := x
  · exact .error rfl rfl rfl
  · exact .ok rfl rfl (.refl (hvalid flat rfl)) rfl

end Memory

namespace AddressSpaces

variable {δ : Type}

def Alike (s s' : AddressSpaces δ) : Prop := ∀ key, Option.Rel Memory.Alike (s.get? key) (s'.get? key)

structure Reply.Alike (reply reply' : Reply δ) : Prop where
  report : reply.report = reply'.report
  memory : Option.Rel Memory.Alike reply.memory? reply'.memory?

namespace Alike

variable {s s' : AddressSpaces δ}

theorem insert (h : s.Alike s') {m m' : Memory δ} (hm : m.Alike m') (key : String) :
    (s.insert key m).1.Alike (s'.insert key m').1 := by
  intro k
  rw [get?_insert, get?_insert]
  by_cases hk : k = key
  · rw [if_pos hk, if_pos hk]
    exact .some hm
  · rw [if_neg hk, if_neg hk]
    exact h k

theorem remove (h : s.Alike s') (key : String) : (s.remove key).1.Alike (s'.remove key).1 := by
  intro k
  rw [get?_remove, get?_remove]
  by_cases hk : k = key
  · rw [if_pos hk, if_pos hk]
    exact .none
  · rw [if_neg hk, if_neg hk]
    exact h k

theorem isSome_get? (h : s.Alike s') (key : String) : (s.get? key).isSome = (s'.get? key).isSome := by
  obtain ⟨hm, hm'⟩ | ⟨m, m', hm, hm', -⟩ := eq_none_or_eq_some_of_rel (h key)
  · rw [hm, hm']
  · rw [hm, hm']
    rfl

theorem keys (h : s.Alike s') : s.keys = s'.keys := by
  apply (ascending_keys s).eq_of_mem_iff (ascending_keys s')
  intro key
  rw [mem_keys, mem_keys, h.isSome_get?]

theorem size (h : s.Alike s') : s.size = s'.size := by
  have hlength := congrArg List.length h.keys
  rwa [AddressSpaces.keys, AddressSpaces.keys, Std.TreeMap.length_keys, Std.TreeMap.length_keys] at hlength

theorem isEmpty (h : s.Alike s') : s.isEmpty = s'.isEmpty := by
  have hempty := congrArg List.isEmpty h.keys
  rwa [AddressSpaces.keys, AddressSpaces.keys, Std.TreeMap.isEmpty_keys, Std.TreeMap.isEmpty_keys] at hempty

theorem reached (h : s.Alike s') (key : String) : (s.reached key).Alike (s'.reached key) := by
  unfold AddressSpaces.reached
  obtain ⟨hm, hm'⟩ | ⟨m, m', hm, hm', hmm⟩ := eq_none_or_eq_some_of_rel (h key)
  · rw [hm, hm']
    exact .fresh s.diagnostics s'.diagnostics
  · rw [hm, hm']
    exact hmm

variable [Device δ]

theorem load (h : s.Alike s') (key : String) : s.load key = s'.load key := by
  unfold AddressSpaces.load
  obtain ⟨hm, hm'⟩ | ⟨m, m', hm, hm', hmm⟩ := eq_none_or_eq_some_of_rel (h key)
  · rw [hm, hm']
  · rw [hm, hm']
    exact hmm.load

theorem missing (h : s.Alike s') (key : String) : s.missing key = s'.missing key := by
  unfold AddressSpaces.missing
  obtain ⟨hm, hm'⟩ | ⟨m, m', hm, hm', hmm⟩ := eq_none_or_eq_some_of_rel (h key)
  · rw [hm, hm']
  · rw [hm, hm']
    exact hmm.missing

theorem blocks (h : s.Alike s') (key : String) : s.blocks key = s'.blocks key := by
  unfold AddressSpaces.blocks
  obtain ⟨hm, hm'⟩ | ⟨m, m', hm, hm', hmm⟩ := eq_none_or_eq_some_of_rel (h key)
  · rw [hm, hm']
  · rw [hm, hm']
    exact hmm.blocks

theorem store (h : s.Alike s') (key : String) (a : Nat) (v : Expr) (w : Width) :
    (s.store key a v w).state.Alike (s'.store key a v w).state ∧
      (s.store key a v w).report = (s'.store key a v w).report := by
  constructor
  · rw [state_store, state_store]
    exact h.insert ((h.reached key).store a v w).1 key
  · unfold AddressSpaces.store
    obtain ⟨hm, hm'⟩ | ⟨m, m', hm, hm', hmm⟩ := eq_none_or_eq_some_of_rel (h key)
    · have hfresh : (Memory.sparse { diagnostics := s.diagnostics } : Memory δ).Alike
          (.sparse { diagnostics := s'.diagnostics }) := .fresh _ _
      simp only [hm, hm', (hfresh.store a v w).2]
    · rw [hm, hm']
      exact (hmm.store a v w).2

theorem respond (h : s.Alike s') {find find' : Nat → Option (Memory δ)}
    (hfind : ∀ n, Option.Rel Memory.Alike (find n) (find' n)) (key : String) (r : Request Nat) :
    Option.Rel (fun x x' => x.1.Alike x'.1 ∧ x.2.Alike x'.2) ((r.resolve find).map (s.respond key))
      ((r.resolve find').map (s'.respond key)) := by
  cases r with
  | load a w =>
    refine .some ⟨h, ?_, .none⟩
    simp only [AddressSpaces.respond, h.load]
  | store a v w =>
    obtain ⟨hstate, hreport⟩ := h.store key a v w
    refine .some ⟨hstate, ?_, .none⟩
    simp only [AddressSpaces.respond, hreport]
  | missing a w =>
    refine .some ⟨h, ?_, .none⟩
    simp only [AddressSpaces.respond, h.missing]
  | blocks =>
    refine .some ⟨h, ?_, .none⟩
    simp only [AddressSpaces.respond, h.blocks]
  | insert n =>
    obtain ⟨hm, hm'⟩ | ⟨m, m', hm, hm', hmm⟩ := eq_none_or_eq_some_of_rel (hfind n)
    · simp only [Request.resolve, hm, hm']
      exact .none
    · simp only [Request.resolve, hm, hm']
      refine .some ⟨h.insert hmm key, ?_, h key⟩
      simp only [AddressSpaces.respond, AddressSpaces.insert, h.isSome_get?]
  | remove =>
    refine .some ⟨h.remove key, ?_, h key⟩
    simp only [AddressSpaces.respond, AddressSpaces.remove, h.isSome_get?]
  | get =>
    refine .some ⟨h, ?_, h key⟩
    simp only [AddressSpaces.respond, h.isSome_get?]
  | storeThrough a v w =>
    simp only [Request.resolve, Option.map_some, AddressSpaces.respond, modify?]
    obtain ⟨hm, hm'⟩ | ⟨m, m', hm, hm', hmm⟩ := eq_none_or_eq_some_of_rel (h key)
    · rw [hm, hm']
      exact .some ⟨h, rfl, .none⟩
    · obtain ⟨hstate, hreport⟩ := hmm.store a v w
      rw [hm, hm']
      refine .some ⟨h.insert hstate key, ?_, .none⟩
      simp only [Option.map_some, Step.inside, hreport]

end Alike

end AddressSpaces

namespace Session

variable {δ : Type}

structure Alike (σ σ' : Session δ) : Prop where
  memories : ∀ n, Option.Rel Memory.Alike (σ.memories n) (σ'.memories n)
  spaces : ∀ n, Option.Rel AddressSpaces.Alike (σ.spaces n) (σ'.spaces n)

namespace Alike

variable {σ σ' : Session δ}

theorem fresh : Alike ({} : Session δ) {} := ⟨fun _ => .none, fun _ => .none⟩

theorem put (h : σ.Alike σ') {m m' : Memory δ} (hm : m.Alike m') (n : Nat) : (σ.put n m).Alike (σ'.put n m') where
  spaces := h.spaces
  memories := by
    intro k
    by_cases hk : k = n
    · simp only [Session.put, if_pos hk]
      exact .some hm
    · simp only [Session.put, if_neg hk]
      exact h.memories k

theorem putSpaces (h : σ.Alike σ') {s s' : AddressSpaces δ} (hs : s.Alike s') (n : Nat) :
    (σ.putSpaces n s).Alike (σ'.putSpaces n s') where
  memories := h.memories
  spaces := by
    intro k
    by_cases hk : k = n
    · simp only [Session.putSpaces, if_pos hk]
      exact .some hs
    · simp only [Session.putSpaces, if_neg hk]
      exact h.spaces k

theorem take (h : σ.Alike σ') {m? m?' : Option (Memory δ)} (hm : Option.Rel Memory.Alike m? m?') (n : Nat) :
    (σ.take n m?).Alike (σ'.take n m?') := by
  cases hm with
  | none => exact h
  | some hm => exact h.put hm n

variable [Device δ]

theorem make (h : σ.Alike σ') (d d' : Diagnostics) (source : Source δ) :
    Option.Rel Memory.Made (σ.make d source) (σ'.make d' source) := by
  cases source with
  | sparse => exact .some (.ok rfl rfl (.fresh d d') rfl)
  | image given => exact .some (.image given d d')
  | emptyImage => exact .some (.ok rfl rfl ⟨.nil, .nil, rfl⟩ rfl)
  | device layer => exact .some (.ok rfl rfl (.refl trivial) rfl)
  | layered base top =>
    exact rel_bind (h.memories base) fun hm => rel_bind (h.memories top) fun hn => .some (.layered hm hn d d')
  | boxed base top =>
    exact rel_bind (h.memories base) fun hm => rel_bind (h.memories top) fun hn =>
      .some (.ok rfl rfl (hm.overlay hn) rfl)
  | part n side =>
    exact rel_bind (h.memories n) fun hm => rel_bind (hm.side? side) fun hpart => .some (.ok rfl rfl hpart rfl)
  | flattened n => exact rel_map (h.memories n) fun hm => .flattened hm

theorem execute (h : σ.Alike σ') (d d' : Diagnostics) (c : Command δ) :
    (σ.execute d c).state.Alike (σ'.execute d' c).state ∧ (σ.execute d c).report.Agree (σ'.execute d' c).report := by
  cases c with
  | build source dest =>
    simp only [Session.execute]
    obtain ⟨hx, hx'⟩ | ⟨x, x', hx, hx', hmade⟩ := eq_none_or_eq_some_of_rel (h.make d d' source)
    · rw [hx, hx']
      exact ⟨h, .of_eq rfl⟩
    · rw [hx, hx']
      cases hmade with
      | ok ho ho' hmm hquiet =>
        refine ⟨?_, ?_, ?_⟩
        · simp only [ho, ho']
          exact h.put hmm dest
        · rw [Traced.outcome_bind_ok ho, Traced.outcome_bind_ok ho']
        · rw [Traced.quietLog_bind_pure, Traced.quietLog_bind_pure, hquiet]
      | error ho ho' hquiet =>
        refine ⟨?_, ?_, ?_⟩
        · simp only [ho, ho']
          exact h
        · rw [Traced.outcome_bind_error ho, Traced.outcome_bind_error ho']
        · rw [Traced.quietLog_bind_pure, Traced.quietLog_bind_pure, hquiet]
  | perform n op =>
    simp only [Session.execute]
    obtain ⟨hm, hm'⟩ | ⟨m, m', hm, hm', hmm⟩ := eq_none_or_eq_some_of_rel (h.memories n)
    · rw [hm, hm']
      exact ⟨h, .of_eq rfl⟩
    · obtain ⟨hstate, hreport⟩ := hmm.perform op
      rw [hm, hm']
      exact ⟨h.put hstate n, .of_eq hreport⟩
  | spaces dest => exact ⟨h.putSpaces (fun _ => .none) dest, .of_eq rfl⟩
  | ask n key r dest =>
    simp only [Session.execute]
    obtain ⟨hs, hs'⟩ | ⟨s, s', hs, hs', hss⟩ := eq_none_or_eq_some_of_rel (h.spaces n)
    · rw [hs, hs']
      exact ⟨h, .of_eq rfl⟩
    · rw [hs, hs']
      dsimp only
      obtain ⟨hx, hx'⟩ | ⟨x, x', hx, hx', hstate, hreply⟩ :=
        eq_none_or_eq_some_of_rel (hss.respond h.memories key r)
      · rw [hx, hx']
        exact ⟨h, .of_eq rfl⟩
      · rw [hx, hx']
        refine ⟨(h.putSpaces hstate n).take hreply.memory dest, .of_eq ?_⟩
        simp only [hreply.report]
  | keys n =>
    simp only [Session.execute]
    obtain ⟨hs, hs'⟩ | ⟨s, s', hs, hs', hss⟩ := eq_none_or_eq_some_of_rel (h.spaces n)
    · rw [hs, hs']
      exact ⟨h, .of_eq rfl⟩
    · rw [hs, hs']
      refine ⟨h, .of_eq ?_⟩
      simp only [Step.stay, hss.keys, hss.size, hss.isEmpty]

theorem run (h : σ.Alike σ') (d d' : Nat → Diagnostics) (program : List (Command δ)) :
    (σ.after d program).Alike (σ'.after d' program) ∧
      List.Forall₂ Traced.Agree (σ.reports d program) (σ'.reports d' program) := by
  induction program generalizing σ σ' d d' with
  | nil => exact ⟨h, .nil⟩
  | cons c program ih =>
    obtain ⟨hstate, hreport⟩ := h.execute (d 0) (d' 0) c
    obtain ⟨hafter, hreports⟩ := ih hstate (fun i => d (i + 1)) (fun i => d' (i + 1))
    exact ⟨hafter, .cons hreport hreports⟩

end Alike

variable [Device δ]

/-- The reports of a program may differ in warnings and in nothing else. -/
theorem diagnostics_change_no_answer (d d' : Nat → Diagnostics) (program : List (Command δ)) :
    List.Forall₂ Traced.Agree (reports {} d program) (reports {} d' program) ∧
      ∀ i base top dest m n, program[i]? = some (.build (.layered base top) dest) →
        (after {} d (program.take i)).memories base = some m →
        (after {} d (program.take i)).memories top = some n →
        ∃ report, (reports {} d program)[i]? = some report ∧ report.outcome = .ok .done ∧
          ((∃ e ∈ report.log, e.severity = .warn) ↔ (d i).depthThreshold < (Memory.overlay m n).depth) := by
  refine ⟨(Alike.fresh.run d d' program).2, ?_⟩
  intro i base top dest m n hc hm hn
  rw [getElem?_reports, hc]
  refine ⟨_, rfl, ?_⟩
  simp only [execute, make, hm, hn, Option.bind_eq_bind, Option.bind_some, Memory.layered_eq, Traced.bind_ok]
  refine ⟨rfl, ?_⟩
  rw [Traced.pure_eq, List.append_nil]
  exact Memory.warns_iff (.overlay m n) (d i)

theorem diagnostics_change_no_answer_shallow :
    let program : List (Command Empty) := [.build .sparse 0, .build .emptyImage 1, .build (.layered 0 1) 2]
    let eager : Nat → Diagnostics := fun _ => ⟨1, true⟩
    let lazy : Nat → Diagnostics := fun _ => .fast
    List.Forall₂ Traced.Agree (reports {} eager program) (reports {} lazy program) ∧
      (∃ report, (reports {} eager program)[2]? = some report ∧ ∃ e ∈ report.log, e.severity = .warn) ∧
      ∃ report, (reports {} lazy program)[2]? = some report ∧ ¬ ∃ e ∈ report.log, e.severity = .warn := by
  intro program eager lazy
  obtain ⟨hagree, hwarns⟩ := diagnostics_change_no_answer eager lazy program
  obtain ⟨r, hr, -, hwarn⟩ := hwarns 2 0 1 2 _ _ rfl rfl rfl
  obtain ⟨r', hr', -, hquiet⟩ := (diagnostics_change_no_answer lazy eager program).2 2 0 1 2 _ _ rfl rfl rfl
  refine ⟨hagree, ⟨r, hr, hwarn.2 (by decide)⟩, r', hr', fun h => ?_⟩
  exact absurd (hquiet.1 h) (by decide)

end Session

end LayeredMemory
