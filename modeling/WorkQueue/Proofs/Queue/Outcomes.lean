import WorkQueue.Proofs.Queue.InFlight

/-!
# What recorders are told of outcomes

A recorder is told what becomes of every entry whose execution has been begun. An entry that has
waited for a permit when the run was canceled is canceled as well, but nobody is told. This happens
to at most one entry of a run, and to all others it does not.

## Main definitions

* `Account.Closed`: all entries have come to an end, and all but those have been reported
* `Account.Complete`: all entries have been reported

## Main statements

* `System.closed_of_returned`: what has been reported of the entries of a run that is over
* `System.not_complete_narrow`: not everything, if it is canceled while an entry waits
-/

namespace WorkQueue

/-! ## Accounts of runs that are over -/

namespace Account

/-- The account of a run that is over. -/
structure Closed (a : Account) (l : Ledger) : Prop where
  /-- No entry is open. -/
  ended : ∀ id ∈ a.entered, (l.stateOf id).isTerminal = true
  /-- What has become of an entry has been reported once, unless it was canceled in front of a
  permit. -/
  told : (a.reported.map Resolution.outcome).Perm
    ((a.entered.filter (· ∉ a.dropped)).map l.outcomeOf)
  canceled : ∀ id ∈ a.dropped, id ∈ a.entered ∧ l.stateOf id = .canceled
  once : a.dropped.length ≤ 1

/-- What has become of every entry has been reported, and once. -/
def Complete (a : Account) (l : Ledger) : Prop :=
  (a.reported.map Resolution.outcome).Perm (a.entered.map l.outcomeOf)

instance decidableComplete (a : Account) (l : Ledger) : Decidable (a.Complete l) :=
  inferInstanceAs (Decidable (List.Perm _ _))

end Account

namespace Run.Accounted

variable {q : Queue} {r : Run} {a : Account} {settled : List Nat}

/-- Of the entries of a run that is over, those have been executed that were not canceled in front of
a permit. -/
theorem perm_filter_of_returned (h : r.Accounted q a settled) (hreturned : r.Returned) :
    (a.entered.filter (· ∉ a.dropped)).Perm settled := by
  have hentered := h.perm_of_returned hreturned
  -- no entry is in both lists
  have hdisjoint := (List.nodup_append.mp (hentered.nodup_iff.mpr h.nodup)).2.2
  have hdropped : a.dropped.filter (· ∉ a.dropped) = [] := by simp
  have hsettled : settled.filter (· ∉ a.dropped) = settled := by
    refine List.filter_eq_self.mpr fun id hid => decide_eq_true fun hmem => ?_
    exact hdisjoint id hmem id hid rfl
  have hfilter := hentered.symm.filter (· ∉ a.dropped)
  rwa [List.filter_append, hdropped, hsettled] at hfilter

theorem closed (h : r.Accounted q a settled) (hreturned : r.Returned)
    (hrecorder : q.recorder ≠ .silent) : a.Closed q.ledger where
  ended := h.isTerminal_of_returned hreturned
  told := (h.reported_of_returned hreturned hrecorder).trans
    ((h.perm_filter_of_returned hreturned).symm.map _)
  canceled id hid := ⟨h.mem_of_dropped hid, h.canceled id hid⟩
  once := h.once

/-- Every entry is reported if and only if none was canceled in front of a permit: each of these is
one report less. -/
theorem complete_iff (h : r.Accounted q a settled) (hreturned : r.Returned)
    (hrecorder : q.recorder ≠ .silent) : a.Complete q.ledger ↔ a.dropped = [] := by
  have hentered := h.perm_of_returned hreturned
  have hreported := h.reported_of_returned hreturned hrecorder
  constructor
  · intro hcomplete
    have hlength : a.dropped.length + settled.length = settled.length := by
      have hall := hcomplete.length_eq
      have htold := hreported.length_eq
      have hsum := hentered.length_eq
      simp only [List.length_map, List.length_append] at hall htold hsum
      omega
    exact List.length_eq_zero_iff.mp (by omega)
  · intro hnone
    rw [hnone, List.nil_append] at hentered
    exact hreported.trans (hentered.map _)

end Run.Accounted

namespace System

variable {σ : Type} [LogStore σ] {sys : System σ} {s : Scene σ} {q i : Nat}

/-! ## Runs of a system -/

/-- When a run returns, all its entries are in terminal states, and each of them has been reported
once, with its state, unless it was canceled while it waited for a permit. That happens to one entry
at most, and only if it happens to none the recorder has been told everything. -/
theorem closed_of_returned (h : sys.Unused) {moves : List (Move σ)}
    (hs : (sys.after moves).scene? q i = some s) (hreturned : s.run.Returned)
    (hrecorder : s.queue.recorder ≠ .silent) :
    (sys.account q i moves).Closed s.queue.ledger ∧
      ((sys.account q i moves).Complete s.queue.ledger ↔ (sys.account q i moves).dropped = []) := by
  obtain ⟨settled, haccounted⟩ := (h.kept hs).accounted hreturned
  exact ⟨haccounted.closed hreturned hrecorder, haccounted.complete_iff hreturned hrecorder⟩

/-- A queue that executes one task at a time. -/
def narrow : System MemoryLog where
  cluster := { store := {}, brokers := #[{ defaultPartitions := 1 }] }
  slots := #[{ queue := {
    broker := 0
    config := {
      groupId := "g", primaryTopic := "t", delayedTopic := "d", maxParallelTasks := 1 } } }]

/-- There are two records, of which nobody can read any. The first one has the only permit, and the
second one waits for it. -/
def waiting : List (Move MemoryLog) :=
  let send : Move MemoryLog := .outside (Use.operation (.send 0 "t" "k" ByteArray.empty))
  let primary := stepOf 0 .primary
  let dequeue := stepOf 0 .dequeue
  [send, send, .start 0, dequeue, primary, primary, primary, primary, dequeue, dequeue, primary,
    primary, primary, dequeue]

/-- A run that has been canceled comes to an end. -/
def ending : List (Move MemoryLog) :=
  let task := stepOf 0 (.task 0)
  let dequeue := stepOf 0 .dequeue
  [.cancel 0, dequeue, task, task, task, stepOf 0 .primary, stepOf 0 .delayed, dequeue, dequeue]

theorem closed_of_returned_narrow :
    ∃ s ∈ (narrow.after (waiting ++ ending)).scene? 0 0,
      s.run.Returned ∧ s.queue.recorder = .working ∧
        (narrow.account 0 0 (waiting ++ ending)).Closed s.queue.ledger ∧
        (narrow.account 0 0 (waiting ++ ending)).entered = [0, 1] ∧
        (narrow.account 0 0 (waiting ++ ending)).dropped = [1] := by
  have hs : ∃ s ∈ (narrow.after (waiting ++ ending)).scene? 0 0,
      s.run.Returned ∧ s.queue.recorder = .working := by decide +kernel
  obtain ⟨s, hs, hreturned, hrecorder⟩ := hs
  have hunused : narrow.Unused := by simp [Unused, narrow]
  have hloud : s.queue.recorder ≠ .silent := by simp [hrecorder]
  have hentered : (narrow.account 0 0 (waiting ++ ending)).entered = [0, 1] := by decide +kernel
  have hdropped : (narrow.account 0 0 (waiting ++ ending)).dropped = [1] := by decide +kernel
  exact ⟨s, hs, hreturned, hrecorder, (closed_of_returned hunused hs hreturned hloud).1, hentered,
    hdropped⟩

/-- Nobody has been told that the second entry is canceled. -/
theorem not_complete_narrow :
    ∃ s ∈ (narrow.after (waiting ++ ending)).scene? 0 0,
      s.run.Returned ∧ s.queue.recorder = .working ∧ s.queue.ledger.stateOf 1 = .canceled ∧
        ¬ (narrow.account 0 0 (waiting ++ ending)).Complete s.queue.ledger := by decide +kernel

end System

end WorkQueue
