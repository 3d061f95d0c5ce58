import WorkQueue.Consumer.Basic

/-!
# Positions of a consumer

The positions of a consumer stand in ascending order of their partitions, so each is found by its
partition.

## Main statements

* `Fetch.lookup_insertPosition`, `Fetch.lookup_filter`: what is found behind a change
* `Fetch.ascending_insertPosition`, `Fetch.map_fst_insertPosition`: a position is put at its place, or
  stays there
* `Fetch.lookup_of_mem`: positions are found
-/

namespace WorkQueue

namespace Fetch

theorem mem_insertPosition {p n p' n' : Int} {positions : List (Int × Int)}
    (h : (p', n') ∈ insertPosition p n positions) :
    (p', n') = (p, n) ∨ (p', n') ∈ positions := by
  induction positions with
  | nil => exact .inl (List.mem_singleton.mp h)
  | cons first rest ih =>
    obtain ⟨q, o⟩ := first
    unfold insertPosition at h
    split at h
    · exact (List.mem_cons.mp h).imp_right id
    · split at h
      · exact (List.mem_cons.mp h).imp_right (List.mem_cons_of_mem _)
      · rcases List.mem_cons.mp h with heq | hrest
        · exact .inr (heq ▸ List.mem_cons_self)
        · exact (ih hrest).imp_right (List.mem_cons_of_mem _)

theorem lookup_cons_eq_ite (p n q : Int) (rest : List (Int × Int)) :
    ((p, n) :: rest).lookup q = if q = p then some n else rest.lookup q := by
  rw [List.lookup_cons]
  by_cases hq : q = p
  · simp [hq]
  · simp [hq, beq_eq_false_iff_ne.mpr hq]

theorem lookup_insertPosition (p n q : Int) (positions : List (Int × Int)) :
    (insertPosition p n positions).lookup q = if q = p then some n else positions.lookup q := by
  induction positions with
  | nil => exact lookup_cons_eq_ite p n q []
  | cons first rest ih =>
    obtain ⟨p', o⟩ := first
    unfold insertPosition
    split
    · exact lookup_cons_eq_ite p n q _
    · split
      · next heq =>
        subst heq
        simp only [lookup_cons_eq_ite]
        split <;> rfl
      · next hne =>
        simp only [lookup_cons_eq_ite, ih]
        split
        · next hq => rw [if_neg (by omega)]
        · rfl

/-- Positions are in ascending order of partitions. -/
def Ascending (positions : List (Int × Int)) : Prop := positions.Pairwise (·.1 < ·.1)

theorem ascending_insertPosition (p n : Int) {positions : List (Int × Int)}
    (h : Ascending positions) : Ascending (insertPosition p n positions) := by
  induction positions with
  | nil => exact List.pairwise_singleton _ _
  | cons first rest ih =>
    obtain ⟨p', o⟩ := first
    obtain ⟨hfirst, hrest⟩ := List.pairwise_cons.mp h
    unfold insertPosition
    -- in front of the first position, in its place, or further behind
    split
    · next hlt =>
      refine List.pairwise_cons.mpr ⟨fun entry hentry => ?_, h⟩
      rcases List.mem_cons.mp hentry with rfl | hentry
      · exact hlt
      · exact Int.lt_trans hlt (hfirst entry hentry)
    · split
      · next heq =>
        subst heq
        exact List.pairwise_cons.mpr ⟨hfirst, hrest⟩
      · next hne =>
        refine List.pairwise_cons.mpr ⟨fun entry hentry => ?_, ih hrest⟩
        rcases mem_insertPosition hentry with heq | hentry
        · have hkey : entry.1 = p := (Prod.mk.inj heq).1
          show p' < entry.1
          omega
        · exact hfirst entry hentry

/-- A position that is moved stays at its place. -/
theorem map_fst_insertPosition {p n : Int} {positions : List (Int × Int)} (h : Ascending positions)
    (hp : p ∈ positions.map (·.1)) :
    (insertPosition p n positions).map (·.1) = positions.map (·.1) := by
  induction positions with
  | nil => cases hp
  | cons first rest ih =>
    obtain ⟨p', o⟩ := first
    obtain ⟨hfirst, hrest⟩ := List.pairwise_cons.mp h
    have hle : p' ≤ p := by
      rcases List.mem_cons.mp hp with rfl | hp
      · exact Int.le_refl _
      · obtain ⟨entry, hentry, rfl⟩ := List.mem_map.mp hp
        exact Int.le_of_lt (hfirst entry hentry)
    unfold insertPosition
    rw [if_neg (Int.not_lt.mpr hle)]
    split
    · next heq => rw [List.map_cons, List.map_cons, heq]
    · next hne =>
      rw [List.map_cons, List.map_cons, ih hrest ((List.mem_cons.mp hp).resolve_left hne)]

/-- A position is found by its partition. -/
theorem lookup_of_mem {p n : Int} {positions : List (Int × Int)} (h : Ascending positions)
    (hmem : (p, n) ∈ positions) : positions.lookup p = some n := by
  induction positions with
  | nil => cases hmem
  | cons first rest ih =>
    obtain ⟨p', o⟩ := first
    obtain ⟨hfirst, hrest⟩ := List.pairwise_cons.mp h
    rw [lookup_cons_eq_ite]
    rcases List.mem_cons.mp hmem with heq | hmem
    · obtain ⟨rfl, rfl⟩ := Prod.mk.inj heq
      exact if_pos rfl
    · have hlt : p' < p := hfirst (p, n) hmem
      rw [if_neg (by omega)]
      exact ih hrest hmem

theorem lookup_filter (keep : Int → Bool) (p : Int) (positions : List (Int × Int)) :
    (positions.filter fun entry => keep entry.1).lookup p =
      if keep p then positions.lookup p else none := by
  induction positions with
  | nil => simp
  | cons first rest ih =>
    obtain ⟨p', o⟩ := first
    cases hkeep : keep p' with
    | true =>
      rw [List.filter_cons_of_pos (by exact hkeep), lookup_cons_eq_ite, lookup_cons_eq_ite, ih]
      by_cases hp : p = p'
      · rw [if_pos hp, if_pos hp, hp, hkeep, if_pos rfl]
      · rw [if_neg hp, if_neg hp]
    | false =>
      rw [List.filter_cons_of_neg (by simp [hkeep]), lookup_cons_eq_ite, ih]
      by_cases hp : p = p'
      · rw [hp, hkeep, if_neg (by simp), if_neg (by simp)]
      · rw [if_neg hp]

/-- A partition without a position is not found. -/
theorem lookup_of_any {p : Int} {positions : List (Int × Int)}
    (h : positions.any (·.1 == p) = false) : positions.lookup p = none := by
  induction positions with
  | nil => rfl
  | cons first rest ih =>
    obtain ⟨p', o⟩ := first
    rw [List.any_cons, Bool.or_eq_false_iff] at h
    rw [lookup_cons_eq_ite, if_neg (fun heq => by simp [heq] at h), ih h.2]

end Fetch

end WorkQueue
