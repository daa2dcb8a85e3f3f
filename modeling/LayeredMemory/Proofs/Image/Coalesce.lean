import LayeredMemory.Proofs.Image.Blocks
import LayeredMemory.Proofs.Outcome

namespace LayeredMemory.Block

variable {b last : Block} {l joined : List Block} {p : Nat}

theorem stop_join (h : b.start = last.stop) : (last.join b).stop = b.stop := by
  have hstop : last.stop = last.start + last.bytes.size := rfl
  simp only [stop, join, ByteArray.size_append]
  omega

theorem at?_join (h : b.start = last.stop) (p : Nat) : (last.join b).at? p = (last.at? p).or (b.at? p) := by
  have hsize : last.bytes.data.size = last.bytes.size := rfl
  have hstop : last.stop = last.start + last.bytes.size := rfl
  have hjoin : (last.join b).at? p =
      if last.start ≤ p then (last.bytes.data ++ b.bytes.data)[p - last.start]? else none := by
    simp only [at?, join, ByteArray.data_append]
  rw [hjoin, at?, at?]
  by_cases hlo : last.start ≤ p
  · rw [if_pos hlo, if_pos hlo, Array.getElem?_append, hsize]
    by_cases hin : p < last.stop
    · rw [if_pos (by omega), if_neg (by omega), Option.or_none]
    · have hnone : last.bytes.data[p - last.start]? = none := Array.getElem?_eq_none (by omega)
      rw [if_neg (by omega), if_pos (by omega), hnone, Option.none_or]
      congr 1
      omega
  · rw [if_neg hlo, if_neg hlo, if_neg (by omega)]
    rfl

theorem Ordered.join (h : Ordered 0 (last :: b :: l)) (htouch : b.start = last.stop) :
    Ordered 0 (last.join b :: l) := by
  have hstop := stop_join htouch
  have hne := h.nonempty last (by simp)
  have hne' := h.nonempty b (by simp)
  apply Ordered.cons
  · rw [hstop]
    change last.start < b.stop
    omega
  · rw [hstop]
    exact h.bounded b (by simp)
  · rw [hstop]
    exact h.tail.before_tail
  · exact h.tail.tail

theorem joinFrom_ok (h : Ordered 0 (last :: l)) :
    ∃ joined, (joinFrom last l).outcome = .ok joined ∧ Ordered 1 joined ∧
      (∀ c ∈ joined, last.start ≤ c.start) ∧ ∀ p, byteIn joined p = byteIn (last :: l) p := by
  induction l generalizing last with
  | nil =>
    have hne := h.nonempty last (by simp)
    have hlast := h.bounded last (by simp)
    exact ⟨[last], rfl, .cons hne hlast (by simp) .nil, by simp, fun p => rfl⟩
  | cons b rest ih =>
    have hnext := h.before_tail b (by simp)
    have hne := h.nonempty last (by simp)
    have hlast := h.bounded last (by simp)
    rw [joinFrom, if_neg (by omega)]
    by_cases htouch : b.start = last.stop
    · obtain ⟨joined, hok, hordered, hstart, hbyte⟩ := ih (h.join htouch)
      rw [if_pos htouch]
      refine ⟨joined, hok, hordered, hstart, fun p => ?_⟩
      rw [hbyte, byteIn_cons, byteIn_cons, byteIn_cons, at?_join htouch, Option.or_assoc]
    · obtain ⟨joined, hok, hordered, hstart, hbyte⟩ := ih h.tail
      rw [if_neg htouch, Traced.outcome_bind_ok hok]
      refine ⟨last :: joined, rfl, ?_, ?_, fun p => ?_⟩
      · apply Ordered.cons hne hlast _ hordered
        intro c hc
        have := hstart c hc
        omega
      · intro c hc
        rcases List.mem_cons.1 hc with rfl | hc
        · exact Nat.le_refl _
        · have := hstart c hc
          omega
      · rw [byteIn_cons, hbyte, byteIn_cons last]

theorem coalesce_ok (h : Ordered 0 l) :
    ∃ joined, (coalesce l).outcome = .ok joined ∧ Ordered 1 joined ∧ ∀ p, byteIn joined p = byteIn l p := by
  cases l with
  | nil => exact ⟨[], rfl, .nil, fun p => rfl⟩
  | cons b rest =>
    obtain ⟨joined, hok, hordered, -, hbyte⟩ := joinFrom_ok h
    exact ⟨joined, hok, hordered, hbyte⟩

theorem Ordered.of_join (htouch : b.start = last.stop) (hne : b.start < b.stop) (h : Ordered 0 (last.join b :: l)) :
    Ordered 0 (b :: l) := by
  have hstop := stop_join htouch
  have hlast := h.bounded (last.join b) (by simp)
  have hnext := h.before_tail
  rw [hstop] at hlast hnext
  exact .cons hne hlast hnext h.tail

theorem ordered_of_joinFrom (hne : ∀ b ∈ last :: l, b.start < b.stop)
    (hlast : ∀ b ∈ last :: l, b.stop ≤ Address.last) (h : (joinFrom last l).outcome = .ok joined) :
    Ordered 0 (last :: l) := by
  induction l generalizing last joined with
  | nil => exact .cons (hne last (by simp)) (hlast last (by simp)) (by simp) .nil
  | cons b rest ih =>
    have hnel := hne last (by simp)
    have hneb := hne b (by simp)
    rw [joinFrom] at h
    split at h
    · cases h
    · rename_i hover
      -- in either case the order of the rest is known first, from the run that begins with or takes in `b`
      have hrest : Ordered 0 (b :: rest) := by
        split at h
        · rename_i htouch
          have hstop := stop_join htouch
          apply Ordered.of_join htouch hneb
          apply ih _ _ h
          · intro c hc
            rcases List.mem_cons.1 hc with rfl | hc
            · rw [hstop]
              change last.start < b.stop
              omega
            · exact hne c (.tail _ (.tail _ hc))
          · intro c hc
            rcases List.mem_cons.1 hc with rfl | hc
            · rw [hstop]
              exact hlast b (by simp)
            · exact hlast c (.tail _ (.tail _ hc))
        · cases hjoined : (joinFrom b rest).outcome with
          | error e =>
            rw [Traced.outcome_bind_error hjoined] at h
            cases h
          | ok tail => exact ih (fun c hc => hne c (.tail _ hc)) (fun c hc => hlast c (.tail _ hc)) hjoined
      apply Ordered.cons hnel (hlast last (by simp)) _ hrest
      intro c hc
      rcases List.mem_cons.1 hc with rfl | hc
      · omega
      · have := hrest.before_tail c hc
        omega

theorem ordered_of_coalesce (hne : ∀ b ∈ l, b.start < b.stop) (hlast : ∀ b ∈ l, b.stop ≤ Address.last)
    (h : (coalesce l).outcome = .ok joined) : Ordered 0 l := by
  cases l with
  | nil => exact .nil
  | cons b rest => exact ordered_of_joinFrom hne hlast h

end LayeredMemory.Block
