import WorkQueue.Proofs.Store.SameLogs

/-!
# Reads that overlook nothing

A read may tell fewer records than there are, but as long as there is one left to tell it tells one.
So a consumer that is told nothing has seen everything there was when it asked.

## Main definitions

* `ThoroughStore`: a log store whose reads overlook nothing

## Main statements

* `ThoroughStore MemoryLog`, `ThoroughStore TableLog`, `ThoroughStore (Faulty σ)`
-/

namespace WorkQueue

open StoreView RecordStore

/-- A log store whose reads overlook nothing. -/
class ThoroughStore (σ : Type) [LogStore σ] extends RecordStore σ where
  /-- A read that may tell something and tells nothing finds nothing from the offset on. -/
  read_nil (topic : String) (p start : Int) {limit : Nat} (s : σ) (h : Sound s) (hpos : 0 < limit)
    (hlimit : limit ≤ maxWord64) :
    Ensures (LogStore.read topic p start limit) s fun result _ =>
      result = .ok [] → ∀ r ∈ records s topic p, r.offset < start

/-- Records numbered from zero on all lie in front of an offset if there are no more than so many. -/
theorem Consecutive.lt_of_drop_eq_nil {topic : String} {p : Int} {records : List Record}
    (h : Consecutive topic p 0 records) {start : Int} (hdrop : records.drop start.toNat = []) :
    ∀ r ∈ records, r.offset < start := by
  intro r hr
  rw [← Int.sub_zero start, ← h.filter_eq_drop start] at hdrop
  have hnot := List.filter_eq_nil_iff.mp hdrop r hr
  simpa using hnot

instance : ThoroughStore MemoryLog where
  read_nil topic p start limit s _ hpos _ := by
    rw [ensures_on]
    intro htold
    have hread : s.read topic p start limit = .ok [] := htold
    cases hlog : s.log topic p with
    | error e => simp [MemoryLog.read, hlog, Except.map] at hread
    | ok found =>
      rw [MemoryLog.read_eq_take hlog, Except.ok.injEq, List.take_eq_nil_iff] at hread
      exact (records_consecutive s trivial topic p).lt_of_drop_eq_nil
        (hread.resolve_left (Nat.ne_of_gt hpos))

/-- A limit that fits into a word is not read as zero. -/
theorem toWord_ne_zero {limit : Nat} (hpos : 0 < limit) (hlimit : limit ≤ maxWord64) :
    toWord limit ≠ 0 := by
  simp only [toWord, Int.bmod]
  simp only [maxWord64] at hlimit
  omega

/-- A negative limit takes everything, and any other one but zero takes something. -/
theorem TableLog.offset_lt_of_read_nil {s : TableLog} (h : s.Sound) {topic : String}
    {p start : Int} {limit : Nat} (hpos : 0 < limit) (hlimit : limit ≤ maxWord64)
    (hread : s.read topic p start limit = []) : ∀ r ∈ s.recordsOf topic p, r.offset < start := by
  have hword := toWord_ne_zero hpos hlimit
  rw [s.read_eq h] at hread
  refine (h.numbered topic p).lt_of_drop_eq_nil ?_
  split at hread
  · exact hread
  · exact (List.take_eq_nil_iff.mp hread).resolve_left (by omega)

instance : ThoroughStore TableLog where
  read_nil topic p start limit s h hpos hlimit := by
    rw [ensures_on, TableLog.on_read]
    exact fun htold => TableLog.offset_lt_of_read_nil h hpos hlimit (Except.ok.inj htold)

instance {σ : Type} [LogStore σ] [ThoroughStore σ] : ThoroughStore (Faulty σ) where
  read_nil topic p start limit s h hpos hlimit := by
    refine Faulty.ensures_guarded (fun _ _ htold => by cases htold) (fun _ => ?_)
    exact ThoroughStore.read_nil topic p start s.inner h hpos hlimit

end WorkQueue
