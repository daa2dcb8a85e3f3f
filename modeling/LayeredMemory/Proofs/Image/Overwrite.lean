import LayeredMemory.Layer.Image
import LayeredMemory.Proofs.Image.Blocks
import LayeredMemory.Proofs.Outcome

namespace LayeredMemory.Block

variable {b c : Block} {l old : List Block} {p a i j start : Nat} {bytes chunk : ByteArray}

theorem stop_extract (hj : j ≤ bytes.size) : (Block.mk a (bytes.extract i j)).stop = a + (j - i) := by
  rw [stop, ByteArray.size_extract, Nat.min_eq_left hj]

theorem at?_extract (hj : j ≤ bytes.size) (p : Nat) :
    (Block.mk a (bytes.extract i j)).at? p =
      if a ≤ p ∧ p < a + (j - i) then bytes.data[i + (p - a)]? else none := by
  have hsize : bytes.data.size = bytes.size := rfl
  rw [at?, ByteArray.data_extract, Array.getElem?_extract, hsize, Nat.min_eq_left hj]
  by_cases hlo : a ≤ p
  · rw [if_pos hlo]
    by_cases hhi : p - a < j - i
    · rw [if_pos hhi, if_pos ⟨hlo, by omega⟩]
    · rw [if_neg hhi, if_neg (by omega)]
  · rw [if_neg hlo, if_neg (by omega)]

theorem data_overwrite (b : Block) (a : Nat) (chunk : ByteArray) :
    (b.overwrite a chunk).bytes.data = b.bytes.data.extract 0 (a - b.start) ++ chunk.data ++
      b.bytes.data.extract (a - b.start + chunk.size) b.bytes.size := by
  have hsize : chunk.data.size = chunk.size := rfl
  simp only [overwrite, ByteArray.copySlice, Nat.zero_add, Nat.sub_zero, hsize, Nat.min_self]
  rw [Array.extract_eq_self_of_le (Nat.le_of_eq hsize)]
  rfl

theorem stop_overwrite (hlo : b.start ≤ a) (hhi : a + chunk.size ≤ b.stop) :
    (b.overwrite a chunk).stop = b.stop := by
  have hsize : b.bytes.data.size = b.bytes.size := rfl
  have hchunk : chunk.data.size = chunk.size := rfl
  have hstop : b.stop = b.start + b.bytes.size := rfl
  rw [stop, ← ByteArray.size_data, data_overwrite]
  simp only [Array.size_append, Array.size_extract, hsize, hchunk, overwrite]
  omega

theorem at?_overwrite (hlo : b.start ≤ a) (hhi : a + chunk.size ≤ b.stop) (p : Nat) :
    (b.overwrite a chunk).at? p = if a ≤ p ∧ p < a + chunk.size then chunk.data[p - a]? else b.at? p := by
  have hsize : b.bytes.data.size = b.bytes.size := rfl
  have hchunk : chunk.data.size = chunk.size := rfl
  have hstop : b.stop = b.start + b.bytes.size := rfl
  have hstart : (b.overwrite a chunk).start = b.start := rfl
  rw [at?, hstart, data_overwrite, at?]
  by_cases hp : b.start ≤ p
  · rw [if_pos hp, if_pos hp]
    simp only [Array.getElem?_append, Array.getElem?_extract, Array.size_append, Array.size_extract, hsize,
      hchunk, Nat.zero_add]
    by_cases hin : a ≤ p ∧ p < a + chunk.size
    · rw [if_pos hin, if_pos (by omega), if_neg (by omega)]
      congr 1
      omega
    · rw [if_neg hin]
      by_cases hbelow : p < a
      · rw [if_pos (by omega), if_pos (by omega), if_pos (by omega)]
      · rw [if_neg (by omega)]
        by_cases hend : p < b.stop
        · rw [if_pos (by omega)]
          congr 1
          omega
        · rw [if_neg (by omega), Array.getElem?_eq_none (by omega)]
  · rw [if_neg hp, if_neg (by omega), if_neg hp]

namespace Writing

variable {s : Writing}

structure Sound (start : Nat) (bytes : ByteArray) (old : List Block) (s : Writing) : Prop where
  ordered : Ordered 0 s.blocks
  done_le : ∀ b ∈ s.done, b.stop ≤ start + s.written
  written_le : s.written ≤ bytes.size
  holds : ∀ p, byteIn s.blocks p =
    if start ≤ p ∧ p < start + s.written then bytes.data[p - start]? else byteIn old p

theorem Sound.init (h : Ordered 0 old) : Sound start bytes old ⟨[], old, 0⟩ where
  ordered := h
  done_le := by simp
  written_le := Nat.zero_le _
  holds := by
    intro p
    rw [if_neg (show ¬ (start ≤ p ∧ p < start + 0) by omega)]
    rfl

theorem Sound.advance {t : Writing} (h : Sound start bytes old s) (hlt : s.written ≤ t.written)
    (hle : t.written ≤ bytes.size) (hordered : Ordered 0 t.blocks)
    (hdone : ∀ b ∈ t.done, b.stop ≤ start + t.written)
    (hnew : ∀ p, byteIn t.blocks p =
      if start + s.written ≤ p ∧ p < start + t.written then bytes.data[p - start]? else byteIn s.blocks p) :
    Sound start bytes old t where
  ordered := hordered
  done_le := hdone
  written_le := hle
  holds := by
    intro p
    rw [hnew]
    by_cases hp : start + s.written ≤ p ∧ p < start + t.written
    · rw [if_pos hp, if_pos (by omega)]
    · rw [if_neg hp, h.holds]
      by_cases hold : start ≤ p ∧ p < start + s.written
      · rw [if_pos hold, if_pos (by omega)]
      · rw [if_neg hold, if_neg (by omega)]

theorem Sound.fill {done ahead : List Block} (h : Sound start bytes old s)
    (hparts : s.blocks = done.reverse ++ ahead) (hdone : ∀ b ∈ done, b.stop ≤ start + s.written)
    (hj : s.written < j) (hsize : j ≤ bytes.size) (hlast : start + bytes.size ≤ Address.last)
    (hahead : ∀ b ∈ ahead, start + j ≤ b.start) :
    Sound start bytes old ⟨⟨start + s.written, bytes.extract s.written j⟩ :: done, ahead, j⟩ := by
  have hstop := stop_extract (a := start + s.written) (i := s.written) hsize
  have hblocks : (Writing.mk (⟨start + s.written, bytes.extract s.written j⟩ :: done) ahead j).blocks =
      done.reverse ++ ⟨start + s.written, bytes.extract s.written j⟩ :: ahead := by
    simp [blocks]
  have hordered := (hparts ▸ h.ordered).between (c := ⟨start + s.written, bytes.extract s.written j⟩)
    (by rw [hstop]; dsimp only; omega) (by omega) (fun b hb => hdone b (List.mem_reverse.1 hb))
    (fun b hb => by have := hahead b hb; omega)
  apply h.advance (Nat.le_of_lt hj) hsize
  · rw [hblocks]
    exact hordered
  · intro b hb
    dsimp only
    rcases List.mem_cons.1 hb with rfl | hb
    · omega
    · have := hdone b hb
      omega
  · intro p
    have hend : start + s.written + (j - s.written) = start + j := by omega
    rw [hblocks, hordered.byteIn_between, hparts]
    by_cases hp : start + s.written ≤ p ∧ p < start + j
    · rw [if_pos ⟨hp.1, by omega⟩, if_pos hp, at?_extract hsize, hend, if_pos hp]
      congr 1
      omega
    · rw [if_neg (fun hc => hp ⟨hc.1, by have := hc.2; omega⟩), if_neg hp]

theorem Sound.cover {done ahead : List Block} (h : Sound start bytes old s)
    (hparts : s.blocks = done.reverse ++ b :: ahead) (hdone : ∀ b ∈ done, b.stop ≤ start + s.written)
    (hj : s.written < j) (hsize : j ≤ bytes.size) (hstart : b.start ≤ start + s.written)
    (hstop : start + j ≤ b.stop) :
    Sound start bytes old
      ⟨done, b.overwrite (start + s.written) (bytes.extract s.written j) :: ahead, j⟩ := by
  have hchunk : (bytes.extract s.written j).size = j - s.written := by
    rw [ByteArray.size_extract, Nat.min_eq_left hsize]
  have hend : start + s.written + (bytes.extract s.written j).size = start + j := by omega
  obtain ⟨hordered, hbyte⟩ := (hparts ▸ h.ordered).replace (b := b) (c := b.overwrite _ _) rfl
    (stop_overwrite hstart (show start + s.written + (bytes.extract s.written j).size ≤ b.stop by omega))
  apply h.advance (Nat.le_of_lt hj) hsize
  · exact hordered
  · intro c hc
    have := hdone c hc
    dsimp only
    omega
  · intro p
    rw [blocks, hbyte, ← hparts, at?_overwrite hstart (by omega), hend]
    by_cases hp : start + s.written ≤ p ∧ p < start + j
    · rw [if_pos ⟨by omega, by omega⟩, if_pos hp, if_pos hp, ByteArray.data_extract, Array.getElem?_extract,
        if_pos (by rw [ByteArray.size_data]; omega)]
      congr 1
      omega
    · rw [if_neg hp, if_neg hp]
      split
      · rename_i hin
        exact (h.ordered.byteIn_of_mem (by rw [hparts]; simp) hin).symm
      · rfl

theorem Sound.parts_of_skip {done ahead : List Block} (h : Sound start bytes old s)
    (hskip : skip (start + s.written) s.done s.ahead = (done, ahead)) :
    s.blocks = done.reverse ++ ahead ∧ ∀ b ∈ done, b.stop ≤ start + s.written := by
  rw [skip_eq, Prod.mk.injEq] at hskip
  obtain ⟨rfl, rfl⟩ := hskip
  constructor
  · rw [List.reverse_append, List.reverse_reverse, List.append_assoc, List.takeWhile_append_dropWhile]
    rfl
  · intro b hb
    rcases List.mem_append.1 hb with hb | hb
    · exact of_decide_eq_true (List.all_eq_true.1 List.all_takeWhile b (List.mem_reverse.1 hb))
    · exact h.done_le b hb

theorem Sound.step (h : Sound start bytes old s) (hleft : s.written < bytes.size)
    (hlast : start + bytes.size ≤ Address.last) : Sound start bytes old (step start bytes s) := by
  rw [Writing.step]
  split
  · rename_i done hskip
    obtain ⟨hparts, hdone⟩ := h.parts_of_skip hskip
    exact h.fill hparts hdone hleft (Nat.le_refl _) hlast (by simp)
  · rename_i done b ahead hskip
    have hstop := lt_stop_of_skip hskip
    obtain ⟨hparts, hdone⟩ := h.parts_of_skip hskip
    have hahead := (hparts ▸ h.ordered).le_from
    dsimp only
    -- a block at the next address is covered, a gap before it is filled
    split
    · apply h.cover hparts hdone
      · omega
      · omega
      · assumption
      · omega
    · apply h.fill hparts hdone
      · omega
      · omega
      · exact hlast
      · intro c hc
        have := (hahead c hc).1
        omega

theorem Sound.run (h : Sound start bytes old s) (hlast : start + bytes.size ≤ Address.last) :
    Sound start bytes old (run start bytes s) ∧ (run start bytes s).written = bytes.size := by
  induction s using run.induct start bytes with
  | case1 s hleft ih =>
    rw [Writing.run, if_pos hleft]
    exact ih (h.step hleft hlast)
  | case2 s hdone =>
    rw [Writing.run, if_neg hdone]
    exact ⟨h, Nat.le_antisymm h.written_le (Nat.le_of_not_lt hdone)⟩

end Writing

theorem ordered_write (h : Ordered 0 l) (hlast : a + bytes.size ≤ Address.last) :
    Ordered 0 (write l a bytes) :=
  ((Writing.Sound.init h).run hlast).1.ordered

theorem byteIn_write (h : Ordered 0 l) (hlast : a + bytes.size ≤ Address.last) (p : Nat) :
    byteIn (write l a bytes) p =
      if a ≤ p ∧ p < a + bytes.size then bytes.data[p - a]? else byteIn l p := by
  obtain ⟨hsound, hall⟩ := (Writing.Sound.init h).run hlast
  have := hsound.holds p
  rw [hall] at this
  exact this

end LayeredMemory.Block
