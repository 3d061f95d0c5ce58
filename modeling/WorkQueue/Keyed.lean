/-!
# Values by key

A finite map is a list of keys with their values, each key once. Looking a key up is
`List.lookup`; setting one replaces its value where it stands or appends it.
-/

namespace WorkQueue

namespace Keyed

variable {κ α : Type} [DecidableEq κ]

/-- Set the value of a key. -/
def put (key : κ) (value : α) : List (κ × α) → List (κ × α)
  | [] => [(key, value)]
  | (k, v) :: rest => if k = key then (key, value) :: rest else (k, v) :: put key value rest

theorem lookup_put (key other : κ) (value : α) (m : List (κ × α)) :
    (put key value m).lookup other = if other = key then some value else m.lookup other := by
  induction m with
  | nil =>
    by_cases h : other = key
    · simp [put, h]
    · simp [put, h, List.lookup_cons, beq_eq_false_iff_ne.mpr h]
  | cons entry rest ih =>
    obtain ⟨k, v⟩ := entry
    by_cases hk : k = key
    · subst hk
      by_cases h : other = k
      · simp [put, h]
      · simp [put, h, List.lookup_cons, beq_eq_false_iff_ne.mpr h]
    · by_cases h : other = k
      · subst h
        simp [put, hk]
      · simp [put, hk, List.lookup_cons, beq_eq_false_iff_ne.mpr h, ih]

end Keyed

end WorkQueue
