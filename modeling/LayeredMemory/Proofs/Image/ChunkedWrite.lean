import LayeredMemory.Proofs.Image.Runs
import LayeredMemory.Proofs.IntervalSet.Equality
import LayeredMemory.Proofs.Lists
import LayeredMemory.Proofs.Memory.FailedStores

/-!
The chunks of a write. Each chunk finds its place anew by halving, in blocks that may touch by then, and gets as far
as the block at its place or the gap there. A chunk takes at least one byte, so the write comes to an end, and in all
this time the blocks stay in order.
-/

namespace LayeredMemory

namespace Block

variable {b c : Block} {l before after : List Block} {a k start : Nat} {bytes : ByteArray}

/-- The position of the first block that does not pass, found by halving. Blocks that pass come first. -/
def position (passes : Block → Bool) (l : List Block) : Nat :=
  bisect (fun n => l[n]?.any passes) 0 l.length

def index? (l : List Block) (a : Nat) : Option (Fin l.length) :=
  let n := position (endsBy a) l
  if h : n < l.length then
    if l[n].start ≤ a then some ⟨n, h⟩ else none
  else none

def writeChunk (l : List Block) (a : Nat) (bytes : ByteArray) : List Block × Nat :=
  match index? l a with
  | some n =>
    let count := min bytes.size (l[n].bytes.size - (a - l[n].start))
    (l.set n (l[n].overwrite a (bytes.extract 0 count)), count)
  | none =>
    let n := position (fun b => decide (b.start ≤ a)) l
    let count := l[n]?.elim bytes.size fun next => min (next.start - a) bytes.size
    (l.insertIdx n ⟨a, bytes.extract 0 count⟩, count)

theorem position_append {passes : Block → Bool} (hbefore : ∀ b ∈ before, passes b = true)
    (hafter : ∀ b ∈ after, passes b = false) : position passes (before ++ after) = before.length := by
  apply bisect_eq
  · rw [List.length_append]
    exact Nat.le_add_right _ _
  · intro n
    by_cases hn : n < before.length
    · rw [List.getElem?_append_left hn, List.getElem?_eq_getElem hn]
      exact iff_of_true (hbefore _ (List.getElem_mem hn)) hn
    · rw [List.getElem?_append_right (Nat.le_of_not_lt hn)]
      refine iff_of_false ?_ hn
      cases hb : after[n - before.length]? with
      | none => exact nofun
      | some b => simp [hafter b (List.mem_of_getElem? hb)]

theorem index?_eq {n : Nat} (hpos : position (endsBy a) l = n) :
    index? l a = if h : n < l.length then if l[n].start ≤ a then some ⟨n, h⟩ else none else none := by
  subst hpos
  rfl

theorem index?_inside (hbefore : ∀ c ∈ before, c.stop ≤ a) (hafter : ∀ c ∈ b :: after, a < c.stop)
    (hstart : b.start ≤ a) :
    index? (before ++ b :: after) a = some ⟨before.length, length_lt_between before after b⟩ := by
  have hpos : position (endsBy a) (before ++ b :: after) = before.length :=
    position_append (fun c hc => decide_eq_true (hbefore c hc)) fun c hc =>
      decide_eq_false (Nat.not_le.2 (hafter c hc))
  have hlt := length_lt_between before after b
  rw [index?_eq hpos, dif_pos hlt, getElem_between hlt, if_pos hstart]

theorem index?_gap (hbefore : ∀ c ∈ before, c.stop ≤ a) (hafter : ∀ c ∈ after, a < c.start) :
    index? (before ++ after) a = none := by
  have hpos : position (endsBy a) (before ++ after) = before.length :=
    position_append (fun c hc => decide_eq_true (hbefore c hc)) fun c hc =>
      decide_eq_false (Nat.not_le.2 (Nat.lt_of_lt_of_le (hafter c hc) (Nat.le_add_right _ _)))
  rw [index?_eq hpos]
  split
  · rename_i hlt
    have hmem : (before ++ after)[before.length] ∈ after := by
      rw [List.getElem_append_right (Nat.le_refl _)]
      exact List.getElem_mem _
    rw [if_neg (Nat.not_le.2 (hafter _ hmem))]
  · rfl

theorem writeChunk_inside (hbefore : ∀ c ∈ before, c.stop ≤ a) (hafter : ∀ c ∈ b :: after, a < c.stop)
    (hstart : b.start ≤ a) (bytes : ByteArray) :
    writeChunk (before ++ b :: after) a bytes =
      (before ++ b.overwrite a (bytes.extract 0 (min bytes.size (b.stop - a))) :: after,
        min bytes.size (b.stop - a)) := by
  have hlt := length_lt_between before after b
  have hstop : b.stop = b.start + b.bytes.size := rfl
  -- room counted from the offset in the block is room counted up to its end
  have hroom : b.bytes.size - (a - b.start) = b.stop - a := by omega
  rw [writeChunk, index?_inside hbefore hafter hstart]
  simp only [Fin.getElem_fin, getElem_between hlt, hroom, List.set_append_right _ _ (Nat.le_refl _), Nat.sub_self,
    List.set_cons_zero]

theorem writeChunk_gap (hbefore : ∀ c ∈ before, c.stop ≤ a) (hafter : ∀ c ∈ after, a < c.start)
    (bytes : ByteArray) {count : Nat}
    (hcount : count = after.head?.elim bytes.size fun next => min (next.start - a) bytes.size) :
    writeChunk (before ++ after) a bytes = (before ++ ⟨a, bytes.extract 0 count⟩ :: after, count) := by
  have hpos : position (fun b => decide (b.start ≤ a)) (before ++ after) = before.length :=
    position_append (fun c hc => decide_eq_true (Nat.le_trans (Nat.le_add_right _ _) (hbefore c hc))) fun c hc =>
      decide_eq_false (Nat.not_le.2 (hafter c hc))
  have hnext : (before ++ after)[before.length]? = after.head? := by
    rw [List.getElem?_append_right (Nat.le_refl _), Nat.sub_self, List.head?_eq_getElem?]
  rw [writeChunk, index?_gap hbefore hafter]
  simp only [hpos, hnext, ← hcount, insertIdx_between]

structure Chunked where
  blocks : List Block
  written : Nat

namespace Chunked

variable {s : Chunked} {count : Nat}

def next (start : Nat) (bytes : ByteArray) (s : Chunked) : Chunked :=
  let chunk := writeChunk s.blocks (start + s.written) (bytes.extract s.written bytes.size)
  ⟨chunk.1, s.written + chunk.2⟩

def rounds (l : List Block) (start : Nat) (bytes : ByteArray) : Nat → Chunked
  | 0 => ⟨l, 0⟩
  | n + 1 =>
    let s := rounds l start bytes n
    if s.written < bytes.size then s.next start bytes else s

theorem rounds_succ (l : List Block) (start : Nat) (bytes : ByteArray) (n : Nat) :
    rounds l start bytes (n + 1) =
      if (rounds l start bytes n).written < bytes.size then (rounds l start bytes n).next start bytes
      else rounds l start bytes n := rfl

def InRound (rounds : Nat → Chunked) (n i : Nat) : Prop := (rounds n).written ≤ i ∧ i < (rounds (n + 1)).written

theorem exists_round (n : Nat) {i : Nat} (hi : i < (rounds l start bytes n).written) :
    ∃ m < n, InRound (rounds l start bytes) m i := by
  induction n with
  | zero => exact absurd hi (Nat.not_lt_zero i)
  | succ n ih =>
    by_cases hbefore : i < (rounds l start bytes n).written
    · obtain ⟨m, hm, hin⟩ := ih hbefore
      exact ⟨m, Nat.lt_succ_of_lt hm, hin⟩
    · exact ⟨n, Nat.lt_succ_self n, Nat.le_of_not_lt hbefore, hi⟩

theorem size_rest (s : Chunked) (bytes : ByteArray) :
    (bytes.extract s.written bytes.size).size = bytes.size - s.written := by
  rw [ByteArray.size_extract, Nat.min_self]

theorem extract_rest (hle : s.written + count ≤ bytes.size) :
    (bytes.extract s.written bytes.size).extract 0 count = bytes.extract s.written (s.written + count) := by
  rw [ByteArray.extract_extract, Nat.add_zero, Nat.min_eq_left hle]

theorem next_inside (hparts : s.blocks = before ++ b :: after) (hbefore : ∀ c ∈ before, c.stop ≤ start + s.written)
    (hafter : ∀ c ∈ b :: after, start + s.written < c.stop) (hstart : b.start ≤ start + s.written)
    (hcount : count = min (bytes.size - s.written) (b.stop - (start + s.written)))
    (hle : s.written + count ≤ bytes.size) :
    s.next start bytes =
      ⟨before ++ b.overwrite (start + s.written) (bytes.extract s.written (s.written + count)) :: after,
        s.written + count⟩ := by
  rw [next, hparts, writeChunk_inside hbefore hafter hstart, size_rest, ← hcount, extract_rest hle]

theorem next_gap (hparts : s.blocks = before ++ after) (hbefore : ∀ c ∈ before, c.stop ≤ start + s.written)
    (hafter : ∀ c ∈ after, start + s.written < c.start)
    (hcount : count = after.head?.elim (bytes.size - s.written) fun next =>
      min (next.start - (start + s.written)) (bytes.size - s.written))
    (hle : s.written + count ≤ bytes.size) :
    s.next start bytes =
      ⟨before ++ ⟨start + s.written, bytes.extract s.written (s.written + count)⟩ :: after, s.written + count⟩ := by
  rw [← size_rest] at hcount
  rw [next, hparts, writeChunk_gap hbefore hafter _ hcount, extract_rest hle]

end Chunked

namespace Writing

variable {s : Writing} {old : List Block}

def chunked (s : Writing) : Chunked := ⟨s.blocks, s.written⟩

@[simp] theorem written_chunked (s : Writing) : s.chunked.written = s.written := rfl

def steps (start : Nat) (bytes : ByteArray) (s : Writing) : Nat → Writing
  | 0 => s
  | n + 1 =>
    let t := steps start bytes s n
    if t.written < bytes.size then t.step start bytes else t

theorem steps_succ (start : Nat) (bytes : ByteArray) (s : Writing) (n : Nat) :
    s.steps start bytes (n + 1) =
      if (s.steps start bytes n).written < bytes.size then (s.steps start bytes n).step start bytes
      else s.steps start bytes n := rfl

theorem run_steps (start : Nat) (bytes : ByteArray) (s : Writing) (n : Nat) :
    (s.steps start bytes n).run start bytes = s.run start bytes := by
  induction n with
  | zero => rfl
  | succ n ih =>
    rw [steps_succ, ← ih]
    split
    · rename_i hleft
      rw [run.eq_def start bytes (s.steps start bytes n), if_pos hleft]
    · rfl

/-- The write that goes once through all blocks and the one that searches for each chunk take the same steps. -/
theorem chunked_step (h : Sound start bytes old s) (hleft : s.written < bytes.size) :
    (s.step start bytes).chunked = s.chunked.next start bytes := by
  rw [step]
  split
  · rename_i done hskip
    obtain ⟨hparts, hdone⟩ := h.parts_of_skip hskip
    have hwhole : s.written + (bytes.size - s.written) = bytes.size := Nat.add_sub_cancel' h.written_le
    have hbefore : ∀ c ∈ done.reverse, c.stop ≤ start + s.chunked.written := fun c hc =>
      hdone c (List.mem_reverse.1 hc)
    rw [s.chunked.next_gap hparts hbefore (by simp) rfl (Nat.le_of_eq hwhole)]
    simp [chunked, blocks, hwhole]
  · rename_i done b ahead hskip
    have hstop := lt_stop_of_skip hskip
    obtain ⟨hparts, hdone⟩ := h.parts_of_skip hskip
    have hbefore : ∀ c ∈ done.reverse, c.stop ≤ start + s.chunked.written := fun c hc =>
      hdone c (List.mem_reverse.1 hc)
    have hahead := (hparts ▸ h.ordered).le_from
    have hle : ∀ n, s.written + min (bytes.size - s.written) n ≤ bytes.size := by
      intro n
      omega
    dsimp only
    split
    · rename_i hstart
      have hafter : ∀ c ∈ b :: ahead, start + s.written < c.stop := fun c hc =>
        Nat.lt_of_lt_of_le hstop (hahead c hc).2
      rw [s.chunked.next_inside hparts hbefore hafter hstart rfl (hle _)]
      rfl
    · rename_i hstart
      have hafter : ∀ c ∈ b :: ahead, start + s.written < c.start := fun c hc =>
        Nat.lt_of_lt_of_le (Nat.not_le.1 hstart) (hahead c hc).1
      rw [s.chunked.next_gap hparts hbefore hafter (Nat.min_comm _ _) (hle _)]
      simp [chunked, blocks]

end Writing

theorem Ordered.parts (h : Ordered k l) (a : Nat) :
    ∃ before after, l = before ++ after ∧ (∀ b ∈ before, b.stop ≤ a) ∧ ∀ b ∈ after, a < b.stop := by
  have hends : l.Pairwise (fun b c => endsBy a c = true → endsBy a b = true) := by
    refine h.ascending.imp fun {b c} hbc hc => decide_eq_true ?_
    have hstop : c.stop ≤ a := of_decide_eq_true hc
    have hle : c.start ≤ c.stop := Nat.le_add_right _ _
    omega
  refine ⟨l.takeWhile (endsBy a), l.dropWhile (endsBy a), List.takeWhile_append_dropWhile.symm, ?_, ?_⟩
  · intro b hb
    exact of_decide_eq_true (List.all_eq_true.1 List.all_takeWhile b hb)
  · intro b hb
    exact Nat.not_le.1 (of_decide_eq_false (forall_mem_dropWhile_not hends b hb))

theorem Ordered.index_unique (h : Ordered k l) {i j : Fin l.length} (hi : l[i].Contains a) (hj : l[j].Contains a) :
    i = j := by
  have hapart : ∀ {i j : Fin l.length}, l[i].Contains a → l[j].Contains a → ¬ i.val < j.val := by
    intro i j hi hj hlt
    have := List.pairwise_iff_getElem.1 h.ascending i j i.isLt j.isLt hlt
    have hlo := hj.1
    have hhi := hi.2
    simp only [Fin.getElem_fin] at hlo hhi
    omega
  apply Fin.ext
  have := hapart hi hj
  have := hapart hj hi
  omega

theorem Ordered.index?_cases (h : Ordered k l) (a : Nat) :
    (∃ n, index? l a = some n ∧ l[n].Contains a) ∨ (index? l a = none ∧ ∀ b ∈ l, ¬ b.Contains a) := by
  obtain ⟨before, after, rfl, hbefore, hafter⟩ := h.parts a
  have hoff : ∀ b ∈ before, ¬ b.Contains a := fun b hb hc => Nat.not_lt.2 (hbefore b hb) hc.2
  cases after with
  | nil =>
    refine .inr ⟨index?_gap hbefore (by simp), fun b hb => hoff b ?_⟩
    rwa [List.append_nil] at hb
  | cons b after =>
    by_cases hstart : b.start ≤ a
    · refine .inl ⟨_, index?_inside hbefore hafter hstart, ?_⟩
      rw [Fin.getElem_fin, getElem_between]
      exact ⟨hstart, hafter b (by simp)⟩
    · have hahead : ∀ c ∈ b :: after, a < c.start := fun c hc =>
        Nat.lt_of_lt_of_le (Nat.not_le.1 hstart) (h.le_from c hc).1
      refine .inr ⟨index?_gap hbefore hahead, fun c hc => ?_⟩
      rcases List.mem_append.1 hc with hc | hc
      · exact hoff c hc
      · exact fun hin => Nat.not_lt.2 hin.1 (hahead c hc)

theorem Ordered.index?_eq_some_iff (h : Ordered k l) {n : Fin l.length} : index? l a = some n ↔ l[n].Contains a := by
  rcases h.index?_cases a with ⟨i, hi, hin⟩ | ⟨hnone, hout⟩
  · rw [hi, Option.some_inj]
    constructor
    · rintro rfl
      exact hin
    · exact h.index_unique hin
  · rw [hnone]
    exact iff_of_false nofun (hout _ (List.getElem_mem _))

theorem Ordered.find?_eq_index? (h : Ordered k l) (a : Nat) : find? l a = (index? l a).map fun n => l[n] := by
  rcases h.index?_cases a with ⟨n, hn, hin⟩ | ⟨hnone, hout⟩
  · have hmem : l[n] ∈ l := List.getElem_mem _
    rw [hn, Option.map_some]
    cases hfind : find? l a with
    | none => exact absurd hin (byteIn_eq_none.1 (h.find?_eq_none hfind) _ hmem)
    | some b =>
      obtain ⟨hb, hbin⟩ := find?_eq_some hfind
      rw [h.eq_of_contains hb hmem hbin hin]
  · rw [hnone, Option.map_none]
    cases hfind : find? l a with
    | none => rfl
    | some b =>
      obtain ⟨hb, hbin⟩ := find?_eq_some hfind
      exact absurd hbin (hout b hb)

structure Searchable (l : List Block) : Prop where
  nonempty : ∀ b ∈ l, 0 < b.bytes.size
  ascending : l.Pairwise (fun b c => b.start < c.start ∧ b.stop ≤ c.start)
  found : ∀ a n, index? l a = some n ↔ l[n].Contains a
  found_block : ∀ a, find? l a = (index? l a).map fun n => l[n]

theorem Ordered.searchable (h : Ordered 0 l) : Searchable l where
  nonempty := by
    intro b hb
    have hne := h.nonempty b hb
    have hstop : b.stop = b.start + b.bytes.size := rfl
    omega
  ascending := h.ascending.imp_of_mem fun {b c} hb _ hbc => ⟨Nat.lt_of_lt_of_le (h.nonempty b hb) hbc, hbc⟩
  found := fun _ _ => h.index?_eq_some_iff
  found_block := h.find?_eq_index?

structure WritesPrefix (l : List Block) (a : Nat) (bytes : ByteArray) : Prop where
  progress : 1 ≤ (writeChunk l a bytes).2
  within : (writeChunk l a bytes).2 ≤ bytes.size
  byteIn : ∀ p, byteIn (writeChunk l a bytes).1 p =
    if a ≤ p ∧ p < a + (writeChunk l a bytes).2 then bytes.data[p - a]? else byteIn l p

theorem Ordered.writesPrefix (h : Ordered 0 l) (hne : 0 < bytes.size) (hlast : a + bytes.size ≤ Address.last) :
    WritesPrefix l a bytes := by
  let s : Writing := ⟨[], l, 0⟩
  have hs : Writing.Sound a bytes l s := .init h
  have hstep : (s.step a bytes).chunked = Chunked.next a bytes ⟨l, 0⟩ := Writing.chunked_step hs hne
  have hnext : Chunked.next a bytes ⟨l, 0⟩ = ⟨(writeChunk l a bytes).1, (writeChunk l a bytes).2⟩ := by
    simp only [Chunked.next, ByteArray.extract_zero_size, Nat.add_zero, Nat.zero_add]
  have hblocks : (s.step a bytes).blocks = (writeChunk l a bytes).1 := congrArg Chunked.blocks (hstep.trans hnext)
  have hwritten : (s.step a bytes).written = (writeChunk l a bytes).2 :=
    congrArg Chunked.written (hstep.trans hnext)
  have hsound := hs.step hne hlast
  have hlt : 0 < (s.step a bytes).written := Writing.written_lt_step a bytes s hne
  exact {
    progress := hwritten ▸ hlt
    within := hwritten ▸ hsound.written_le
    byteIn := fun p => by
      rw [← hblocks, ← hwritten]
      exact hsound.holds p }

section Rounds

variable (h : Ordered 0 l) (hlast : start + bytes.size ≤ Address.last)

include h hlast

theorem Ordered.steps_eq_rounds (n : Nat) :
    Writing.Sound start bytes l (Writing.steps start bytes ⟨[], l, 0⟩ n) ∧
      (Writing.steps start bytes ⟨[], l, 0⟩ n).chunked = Chunked.rounds l start bytes n := by
  induction n with
  | zero => exact ⟨.init h, rfl⟩
  | succ n ih =>
    obtain ⟨hs, heq⟩ := ih
    rw [Writing.steps_succ, Chunked.rounds_succ, ← heq, Writing.written_chunked]
    by_cases hleft : (Writing.steps start bytes ⟨[], l, 0⟩ n).written < bytes.size
    · rw [if_pos hleft, if_pos hleft]
      exact ⟨hs.step hleft hlast, Writing.chunked_step hs hleft⟩
    · rw [if_neg hleft, if_neg hleft]
      exact ⟨hs, rfl⟩

theorem Ordered.ordered_rounds (n : Nat) :
    Ordered 0 (Chunked.rounds l start bytes n).blocks ∧ (Chunked.rounds l start bytes n).written ≤ bytes.size := by
  obtain ⟨hs, heq⟩ := h.steps_eq_rounds hlast n
  rw [← heq]
  exact ⟨hs.ordered, hs.written_le⟩

theorem Ordered.rounds_writesPrefix {n : Nat} (hleft : (Chunked.rounds l start bytes n).written < bytes.size) :
    WritesPrefix (Chunked.rounds l start bytes n).blocks (start + (Chunked.rounds l start bytes n).written)
      (bytes.extract (Chunked.rounds l start bytes n).written bytes.size) := by
  apply (h.ordered_rounds hlast n).1.writesPrefix
  · rw [Chunked.size_rest]
    omega
  · rw [Chunked.size_rest]
    omega

theorem Ordered.written_lt_succ {n : Nat} (hleft : (Chunked.rounds l start bytes n).written < bytes.size) :
    (Chunked.rounds l start bytes n).written < (Chunked.rounds l start bytes (n + 1)).written := by
  have hprogress := (h.rounds_writesPrefix hlast hleft).progress
  rw [Chunked.rounds_succ, if_pos hleft]
  exact Nat.lt_add_of_pos_right hprogress

theorem Ordered.written_le_succ (n : Nat) :
    (Chunked.rounds l start bytes n).written ≤ (Chunked.rounds l start bytes (n + 1)).written := by
  by_cases hleft : (Chunked.rounds l start bytes n).written < bytes.size
  · exact Nat.le_of_lt (h.written_lt_succ hlast hleft)
  · apply Nat.le_of_eq
    rw [Chunked.rounds_succ, if_neg hleft]

theorem Ordered.written_mono {m n : Nat} (hmn : m ≤ n) :
    (Chunked.rounds l start bytes m).written ≤ (Chunked.rounds l start bytes n).written := by
  induction hmn with
  | refl => exact Nat.le_refl _
  | step _ ih => exact Nat.le_trans ih (h.written_le_succ hlast _)

theorem Ordered.finished_or_left (n : Nat) :
    (∃ k ≤ n, (Chunked.rounds l start bytes k).written = bytes.size ∧
      ∀ m < k, (Chunked.rounds l start bytes m).written < bytes.size) ∨
    n ≤ (Chunked.rounds l start bytes n).written ∧
      ∀ m ≤ n, (Chunked.rounds l start bytes m).written < bytes.size := by
  have hstop : ∀ n, (∀ m < n, (Chunked.rounds l start bytes m).written < bytes.size) →
      (Chunked.rounds l start bytes n).written = bytes.size ∨
        ∀ m ≤ n, (Chunked.rounds l start bytes m).written < bytes.size := by
    intro n hbelow
    rcases Nat.lt_or_eq_of_le (h.ordered_rounds hlast n).2 with hlt | heq
    · refine .inr fun m hm => ?_
      rcases Nat.lt_or_eq_of_le hm with hm | rfl
      · exact hbelow m hm
      · exact hlt
    · exact .inl heq
  induction n with
  | zero =>
    rcases hstop 0 (by simp) with heq | hall
    · exact .inl ⟨0, Nat.le_refl 0, heq, by simp⟩
    · exact .inr ⟨Nat.zero_le _, hall⟩
  | succ n ih =>
    rcases ih with ⟨k, hk, hfirst⟩ | ⟨hle, hall⟩
    · exact .inl ⟨k, Nat.le_succ_of_le hk, hfirst⟩
    · have hlt := h.written_lt_succ hlast (hall n (Nat.le_refl n))
      rcases hstop (n + 1) fun m hm => hall m (Nat.le_of_lt_succ hm) with heq | hall
      · exact .inl ⟨n + 1, Nat.le_refl _, heq, fun m hm => hall m (Nat.le_of_lt_succ hm)⟩
      · exact .inr ⟨by omega, hall⟩

theorem Ordered.round_le {m n i : Nat} (hm : Chunked.InRound (Chunked.rounds l start bytes) m i)
    (hn : Chunked.InRound (Chunked.rounds l start bytes) n i) : m ≤ n := by
  apply Nat.not_lt.1
  intro hlt
  have hmono := h.written_mono hlast (Nat.succ_le_of_lt hlt)
  exact Nat.lt_irrefl i (Nat.lt_of_lt_of_le hn.2 (Nat.le_trans hmono hm.1))

theorem Ordered.rounds_finish :
    ∃ last ≤ bytes.size, (Chunked.rounds l start bytes last).written = bytes.size ∧
      (∀ n < last, (Chunked.rounds l start bytes n).written < bytes.size) ∧
      (∀ i < bytes.size, ∃ n < last, Chunked.InRound (Chunked.rounds l start bytes) n i ∧
        ∀ m < last, Chunked.InRound (Chunked.rounds l start bytes) m i → m = n) ∧
      (Chunked.rounds l start bytes last).blocks = write l start bytes := by
  obtain ⟨last, hbound, hall, hbelow⟩ := (h.finished_or_left hlast bytes.size).resolve_right fun hleft =>
    Nat.not_lt.2 hleft.1 (hleft.2 _ (Nat.le_refl _))
  refine ⟨last, hbound, hall, hbelow, fun i hi => ?_, ?_⟩
  · obtain ⟨n, hn, hin⟩ := Chunked.exists_round last (hall ▸ hi)
    exact ⟨n, hn, hin, fun m _ hm => Nat.le_antisymm (h.round_le hlast hm hin) (h.round_le hlast hin hm)⟩
  · obtain ⟨-, heq⟩ := h.steps_eq_rounds hlast last
    have hdone : ¬ (Writing.steps start bytes ⟨[], l, 0⟩ last).written < bytes.size := by
      rw [← hall, ← heq]
      exact Nat.lt_irrefl _
    rw [write, ← Writing.run_steps start bytes _ last, Writing.run, if_neg hdone, ← heq]
    rfl

end Rounds

end Block

namespace ImageLayer

variable {m : ImageLayer} {layers : Layers} {stored : List Expr} {op : Op}

theorem succeeds_iff (h : m.Valid) (hw : 0 < op.write.width.bytes) :
    op.succeeds m = true ↔
      (∃ c, op.write.value.fold = .const c) ∧ op.write.start + op.write.width.bytes ≤ Address.last := by
  have hfails := store_error_iff h (a := op.write.start) (v := op.write.value) (w := op.write.width)
  rw [succeeds_eq_store]
  cases hout : (m.store op.write.start op.write.value op.write.width).report.outcome with
  | error e =>
    refine iff_of_false nofun ?_
    rintro ⟨⟨c, hc⟩, hlast⟩
    rcases (hfails.1 ⟨e, hout⟩).2 with hv | hover
    · exact hv c hc
    · omega
  | ok u =>
    refine iff_of_true rfl ?_
    have hnot : ¬ (0 < op.write.width.bytes ∧ ((∀ c, op.write.value.fold ≠ .const c) ∨
        Address.last < op.write.start + op.write.width.bytes)) := by
      rw [← hfails, hout]
      rintro ⟨e, he⟩
      cases he
    constructor
    · exact Classical.byContradiction fun hnone => hnot ⟨hw, .inl fun c hc => hnone ⟨c, hc⟩⟩
    · exact Nat.not_lt.1 fun hover => hnot ⟨hw, .inr hover⟩

/-- A chunk takes at least one of the bytes that are left, so after finitely many rounds each byte has been written in
one of them. -/
theorem chunks_write_each_byte_once (h : Memory.History (.image m) layers stored) (hw : 0 < op.write.width.bytes)
    {c : Constant} (hc : op.write.value.fold = .const c)
    (hlast : op.write.start + op.write.width.bytes ≤ Address.last) :
    op.succeeds m = true ∧
      let bytes := (c.resize op.write.width).bytes
      let rounds := Block.Chunked.rounds m.blocks op.write.start bytes
      bytes.size = op.write.width.bytes ∧
        (∀ n, (Block.Writing.steps op.write.start bytes ⟨[], m.blocks, 0⟩ n).chunked = rounds n) ∧
        (∀ n, Block.Searchable (rounds n).blocks) ∧
        (∀ n, (rounds n).written < bytes.size →
          Block.WritesPrefix (rounds n).blocks (op.write.start + (rounds n).written)
            (bytes.extract (rounds n).written bytes.size)) ∧
        ∃ last ≤ bytes.size, (rounds last).written = bytes.size ∧ (∀ n < last, (rounds n).written < bytes.size) ∧
          (∀ i < bytes.size, ∃ n < last, Block.Chunked.InRound rounds n i ∧
            ∀ n' < last, Block.Chunked.InRound rounds n' i → n' = n) ∧
          (rounds last).blocks = Block.write m.blocks op.write.start bytes ∧
          ∃ joined, (Block.coalesce (rounds last).blocks).outcome = .ok joined ∧
            op.after m = { m with blocks := joined } := by
  have hvalid : m.Valid := h.tracks.valid
  refine ⟨(succeeds_iff hvalid hw).2 ⟨⟨c, hc⟩, hlast⟩, ?_⟩
  intro bytes rounds
  have hsize : bytes.size = op.write.width.bytes := Constant.size_bytes _
  have hordered : Block.Ordered 0 m.blocks := hvalid.loosen
  have hfit : op.write.start + bytes.size ≤ Address.last := by omega
  have hsearch : ∀ n, Block.Searchable (rounds n).blocks := fun n => (hordered.ordered_rounds hfit n).1.searchable
  obtain ⟨last, hbound, hall, hbelow, honce, hwrite⟩ := hordered.rounds_finish hfit
  obtain ⟨joined, hjoined, hruns, -⟩ := Block.coalesce_ok (Block.ordered_write hordered hfit)
  have hnext : ImageLayer.Valid { m with blocks := joined } := hruns
  have hstate : op.after m = { m with blocks := joined } := by
    rw [after_eq_store, store, tryStore_const hw hc]
    obtain ⟨hjoins, hok⟩ := overwritten_eq hlast hjoined
    exact (Step.examined_ok hjoins hok (outcome_examine hnext)).1
  refine ⟨hsize, fun n => (hordered.steps_eq_rounds hfit n).2, hsearch, fun n hleft =>
    hordered.rounds_writesPrefix hfit hleft, last, hbound, hall, hbelow, honce, hwrite, joined, ?_, hstate⟩
  rw [hwrite]
  exact hjoined

/-- A write over the end of a block, a gap, and the start of another block takes three rounds. -/
theorem chunks_write_over_gap :
    let m : ImageLayer := ⟨[⟨0, ⟨#[1, 2]⟩⟩, ⟨4, ⟨#[5, 6]⟩⟩], {}⟩
    let op : Op := .store ⟨1, .const (.ofNat .w16 0x0307), .w32⟩
    let bytes := ((Constant.ofNat .w16 0x0307).resize .w32).bytes
    let rounds := Block.Chunked.rounds m.blocks 1 bytes
    (∃ layers stored, Memory.History (.image m) layers stored) ∧ 0 < op.write.width.bytes ∧
      op.write.value.fold = .const (.ofNat .w16 0x0307) ∧
      op.write.start + op.write.width.bytes ≤ Address.last ∧ op.succeeds m = true ∧ bytes.size = 4 ∧
      [(rounds 1).written, (rounds 2).written, (rounds 3).written] = [1, 3, 4] ∧
      (∀ n, Block.Searchable (rounds n).blocks) ∧
      (∃ last ≤ 4, (rounds last).written = 4 ∧ ∀ n < last, (rounds n).written < 4) ∧
      ∃ joined, op.after m = ⟨joined, {}⟩ := by
  intro m op bytes rounds
  have himage : (ofBlocks m.blocks {}).outcome = .ok m := by
    have hfilled : m.blocks.filter (fun b => !b.bytes.isEmpty) = m.blocks := rfl
    have hsorted : m.blocks.mergeSort Block.startsFirst = m.blocks := by
      simp [m, List.mergeSort, Block.startsFirst]
    unfold ofBlocks
    dsimp only
    rw [hfilled, hsorted]
    rfl
  have h := Memory.History.image himage
  have hfold : op.write.value.fold = .const (.ofNat .w16 0x0307) := rfl
  have hlast : op.write.start + op.write.width.bytes ≤ Address.last := by decide
  have hwritten : [(rounds 1).written, (rounds 2).written, (rounds 3).written] = [1, 3, 4] := by decide +kernel
  obtain ⟨hok, hsize, -, hsearch, -, last, hbound, hall, hbelow, -, -, joined, -, hafter⟩ :=
    chunks_write_each_byte_once h (by decide) hfold hlast
  have hfour : bytes.size = 4 := hsize
  refine ⟨⟨_, _, h⟩, by decide, hfold, hlast, hok, hsize, hwritten, hsearch, ⟨last, ?_, ?_, ?_⟩, joined, hafter⟩
  · exact hfour ▸ hbound
  · exact hfour ▸ hall
  · exact hfour ▸ hbelow

end ImageLayer

end LayeredMemory
