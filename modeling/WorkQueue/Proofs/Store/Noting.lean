import WorkQueue.Proofs.Store.Interchange

/-!
# A store that takes notes

In front of a store stands somebody who notes every commit that the store is asked for, and passes
all calls on. Whoever works with the store does not notice.

A consumer asks for a commit of every offset whose partition it is assigned, one after the other, and
says in the end whether there were others among them.

## Main definitions

* `Noting`: a store with notes of its commits
* `Consumer.assigned?`: the partitions that a consumer is told to be its own

## Main statements

* `Noting.answer_eq`, `Noting.inner_on`, `Noting.commits_on`: all calls are passed on, and commits
  noted
* `Consumer.ensures_noted`: what a consumer's commit asks for, and whether it succeeds
-/

namespace WorkQueue

/-- A commit that a store is asked for. -/
structure CommitCall where
  group : String
  topic : String
  partition : Int
  next : Int
  deriving DecidableEq, Repr

/-- The commit that a call asks for, if it asks for one. -/
def StoreCall.noted : StoreCall → List CommitCall
  | .commit group topic partition next => [⟨group, topic, partition, next⟩]
  | _ => []

/-- A store, and the commits it has been asked for. -/
structure Noting (σ : Type) where
  inner : σ
  commits : List CommitCall := []

namespace Noting

variable {σ α : Type}

/-- An operation of the store itself. -/
def inside (m : StoreM σ α) : StoreM (Noting σ) α := .ofFunction fun s =>
  let (result, inner) := m.on s.inner
  (result, { s with inner })

/-- Note a commit. -/
def note (call : CommitCall) : StoreM (Noting σ) Unit :=
  .update fun s => ((), { s with commits := s.commits ++ [call] })

instance [LogStore σ] : LogStore (Noting σ) where
  createTopic topic n := inside (LogStore.createTopic topic n)
  partitions topic := inside (LogStore.partitions topic)
  append topic partition key value := inside (LogStore.append topic partition key value)
  read topic partition start limit := inside (LogStore.read topic partition start limit)
  committed group topic partition := inside (LogStore.committed group topic partition)
  commit group topic partition next := do
    note ⟨group, topic, partition, next⟩
    inside (LogStore.commit group topic partition next)
  join now group topic := inside (LogStore.join now group topic)
  heartbeat now group topic member timeout :=
    inside (LogStore.heartbeat now group topic member timeout)
  leave group topic member := inside (LogStore.leave group topic member)

variable [LogStore σ]

/-- The store tells the same as without notes. -/
theorem answer_eq (call : StoreCall) (s : Noting σ) : call.answer s = call.answer s.inner := by
  cases call <;> rfl

/-- Every call is passed on. -/
theorem inner_on (call : StoreCall) (s : Noting σ) : (call.on s).inner = call.on s.inner := by
  cases call <;> rfl

theorem commits_on (call : StoreCall) (s : Noting σ) :
    (call.on s).commits = s.commits ++ call.noted := by
  cases call <;> first | rfl | exact (List.append_nil _).symm

end Noting

/-! ## Consumers -/

namespace Consumer

variable {σ : Type} [LogStore σ]

/-- The partitions that a consumer is told to be its own; `none` if it is told nothing. -/
def assigned? (k : Consumer) (now timeout : Nat) (s : σ) : Option (List Int) :=
  match ((k.assignment now timeout).on s).1 with
  | .ok (_, assigned) => some assigned
  | .error _ => none

/-- The commit that a consumer asks for to have everything up to an offset processed. -/
def commitCall (k : Consumer) (o : Int × Int) : CommitCall := ⟨k.group, k.topic, o.1, o.2 + 1⟩

variable {s : Noting σ}

/-- Nobody asks for a commit to learn its partitions. -/
theorem ensures_noted_assignment (k : Consumer) (now timeout : Nat) :
    Ensures (k.assignment now timeout) s fun _ s' => s'.commits = s.commits := by
  have hcalls : Calls (fun call => call.noted = [])
      (k.assignment now timeout : StoreM (Noting σ) (Nat × List Int)) := k.calls_assignment rfl
  refine (hcalls s).mono fun _ s' hreached => ?_
  refine hreached.keeps (I := fun s' => s'.commits = s.commits) rfl fun s₁ call hs₁ hcall => ?_
  rw [Noting.commits_on, hcall, List.append_nil, hs₁]

variable [DependableStore σ]

/-- A store that does not fail is asked for all offsets of the partitions assigned. -/
theorem ensures_noted_commitAll (k : Consumer) (assigned : List Int) (offsets : List (Int × Int))
    (rejected : Option Int) :
    Ensures (k.commitAll assigned offsets rejected) s fun result s' =>
      s'.commits = s.commits ++ (offsets.filter (·.1 ∈ assigned)).map k.commitCall ∧
        ∃ r, result = .ok r ∧ (r = none ↔ rejected = none ∧ ∀ o ∈ offsets, o.1 ∈ assigned) := by
  induction offsets generalizing s rejected with
  | nil => exact ⟨(List.append_nil _).symm, rejected, rfl, by simp⟩
  | cons first rest ih =>
    obtain ⟨p, offset⟩ := first
    unfold commitAll
    by_cases hp : p ∈ assigned
    · rw [if_pos (List.contains_iff_mem.mpr hp), ensures_bind]
      have hcommit : Ensures (LogStore.commit k.group k.topic p (offset + 1)) s fun result s' =>
          result = .ok () ∧ s'.commits = s.commits ++ [k.commitCall (p, offset)] :=
        ⟨DependableStore.commit_done k.group k.topic p (offset + 1) s.inner, rfl⟩
      refine hcommit.mono ?_
      rintro result s₁ ⟨rfl, hs₁⟩
      refine (ih rejected).mono ?_
      rintro result s' ⟨hs', r, rfl, hr⟩
      refine ⟨?_, r, rfl, ?_⟩
      · rw [hs', hs₁]
        simp [hp]
      · rw [hr]
        simp [hp]
    · rw [if_neg fun h => hp (List.contains_iff_mem.mp h)]
      refine (ih (rejected <|> some p)).mono ?_
      rintro result s' ⟨hs', r, rfl, hr⟩
      refine ⟨?_, r, rfl, ?_⟩
      · rw [hs']
        simp [hp]
      · rw [hr]
        simp [hp]

/-- What the store is asked for by a commit of a consumer. It succeeds if and only if all offsets are
of partitions assigned. -/
theorem ensures_noted (k : Consumer) (now timeout : Nat) (offsets : List (Int × Int)) :
    Ensures (k.commit now timeout offsets) s fun result s' =>
      match k.assigned? now timeout s with
      | none => s'.commits = s.commits ∧ result ≠ .ok ()
      | some assigned =>
        s'.commits = s.commits ++ (offsets.filter (·.1 ∈ assigned)).map k.commitCall ∧
          (result = .ok () ↔ ∀ o ∈ offsets, o.1 ∈ assigned) := by
  have hquiet : ((k.assignment now timeout).on s).2.commits = s.commits :=
    k.ensures_noted_assignment now timeout
  unfold commit assigned?
  rw [ensures_bind, ensures_on]
  rcases hon : (k.assignment now timeout).on s with ⟨result, s₁⟩
  rw [hon] at hquiet
  cases result with
  | error e => exact ⟨hquiet, fun hdone => by cases hdone⟩
  | ok told =>
    obtain ⟨generation, assigned⟩ := told
    dsimp only at hquiet ⊢
    refine (k.ensures_noted_commitAll assigned offsets none).bind ?_ ?_
    · rintro rejected s' ⟨hs', r, hrejected, hr⟩
      obtain rfl := Except.ok.inj hrejected
      rw [hquiet] at hs'
      cases rejected with
      | none => exact ⟨hs', fun _ => (hr.mp rfl).2, fun _ => rfl⟩
      | some p =>
        refine ⟨hs', ⟨fun hdone => ?_, fun hall => ?_⟩⟩
        · cases hdone
        · cases hr.mpr ⟨rfl, hall⟩
    · rintro e s' ⟨-, r, hfailed, -⟩
      cases hfailed

end Consumer

end WorkQueue
