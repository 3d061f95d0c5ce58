import Mathlib.Data.List.Perm.Basic
import WorkQueue.Proofs.Consumer.Enrolled
import WorkQueue.Proofs.Store.Silence

/-!
# What a commit touches

A commit raises the positions of the partitions that its heartbeat assigns to the consumer, each to
the largest offset that is listed for it, and leaves every other position alone. Pairs behind a
partition that is not assigned are committed all the same. Since only the largest offset counts,
neither the order of the pairs matters, nor whether they are committed once more.

## Main definitions

* `IsPast`: a position that has come to an offset
* `Consumer.Commits`: what a commit comes to, by what is assigned to the consumer
* `TableLog.Admits`: tables that accept a heartbeat of a member

## Main statements

* `Reached.isPast`: no call moves a position back
* `Consumer.commits_of_assignment`: a commit touches what is assigned to the consumer
* `Consumer.commit_touches_share`: on either store that is the consumer's share
-/

namespace WorkQueue

open StoreView DependableStore

/-! ## Raising a position -/

theorem raisedPast_comm (position : Option Int) (o o' : Int) :
    raisedPast (raisedPast position o) o' = raisedPast (raisedPast position o') o := by
  unfold raisedPast
  congr 1
  cases position with
  | none =>
    simp only [Option.getD_none, Option.getD_some]
    omega
  | some n =>
    simp only [Option.getD_some]
    omega

instance : RightCommutative raisedPast := ⟨raisedPast_comm⟩

theorem foldl_raisedPast_some (n : Int) (offsets : List Int) :
    offsets.foldl raisedPast (some n) = some ((offsets.map (· + 1)).foldl max n) := by
  induction offsets generalizing n with
  | nil => rfl
  | cons o rest ih => exact ih (max n (o + 1))

/-- A position is raised to the maximum of where it has been and the offsets to read next. -/
theorem foldl_raisedPast (position : Option Int) (offsets : List Int) :
    offsets.foldl raisedPast position = (position.toList ++ offsets.map (· + 1)).max? := by
  cases position with
  | some n => exact foldl_raisedPast_some n offsets
  | none =>
    cases offsets with
    | nil => rfl
    | cons o rest =>
      -- the first offset makes a position where there was none
      have hfirst : raisedPast none o = some (o + 1) := congrArg some (Int.max_self _)
      rw [List.foldl_cons, hfirst, foldl_raisedPast_some]
      rfl

/-- The position has come to offset `n`, or is further. -/
def IsPast (n : Int) (position : Option Int) : Prop :=
  ∃ n', position = some n' ∧ n ≤ n'

theorem IsPast.raisedPast {n : Int} {position : Option Int} (h : IsPast n position) (o : Int) :
    IsPast n (raisedPast position o) := by
  obtain ⟨n', rfl, hle⟩ := h
  exact ⟨max n' (o + 1), rfl, Int.le_trans hle (Int.le_max_left _ _)⟩

theorem isPast_foldl {n : Int} {position : Option Int} (h : IsPast n position)
    (offsets : List Int) : IsPast n (offsets.foldl raisedPast position) := by
  induction offsets generalizing position with
  | nil => exact h
  | cons o rest ih => exact ih (h.raisedPast o)

/-- Every offset that has been committed is behind the position. -/
theorem isPast_foldl_of_mem {o : Int} {offsets : List Int} (h : o ∈ offsets)
    (position : Option Int) : IsPast (o + 1) (offsets.foldl raisedPast position) := by
  induction offsets generalizing position with
  | nil => cases h
  | cons first rest ih =>
    rcases List.mem_cons.mp h with rfl | hrest
    · exact isPast_foldl ⟨_, rfl, Int.le_max_right _ _⟩ rest
    · exact ih hrest _

/-- Offsets that are behind the position do not raise it. -/
theorem foldl_raisedPast_eq_self {position : Option Int} {offsets : List Int}
    (h : ∀ o ∈ offsets, IsPast (o + 1) position) :
    offsets.foldl raisedPast position = position := by
  induction offsets with
  | nil => rfl
  | cons o rest ih =>
    obtain ⟨n, rfl, hle⟩ := h o List.mem_cons_self
    have hsame : raisedPast (some n) o = some n := congrArg some (Int.max_eq_left hle)
    rw [List.foldl_cons, hsame]
    exact ih fun o' ho' => h o' (List.mem_cons_of_mem _ ho')

/-! ## Raising the positions of a consumer -/

namespace Consumer

variable {k : Consumer} {assigned : List Int} {offsets offsets' : List (Int × Int)}

theorem raised_of_mem {p : Int} (hp : p ∈ assigned) (position : Positions) :
    k.raised assigned offsets position k.group k.topic p =
      (Ledger.offsetsAt p offsets).foldl raisedPast (position k.group k.topic p) :=
  if_pos ⟨rfl, rfl, hp⟩

theorem raised_of_not {group topic : String} {p : Int}
    (h : ¬ (group = k.group ∧ topic = k.topic ∧ p ∈ assigned)) (position : Positions) :
    k.raised assigned offsets position group topic p = position group topic p :=
  if_neg h

theorem raised_perm (h : offsets.Perm offsets') (position : Positions) :
    k.raised assigned offsets position = k.raised assigned offsets' position := by
  funext group topic p
  have hoffsets : (Ledger.offsetsAt p offsets).Perm (Ledger.offsetsAt p offsets') :=
    (h.filter _).map _
  exact ite_congr rfl (fun _ => hoffsets.foldl_eq _) fun _ => rfl

/-- Positions behind everything that is listed stay where they are. -/
theorem raised_eq_self {position : Positions}
    (h : ∀ p ∈ assigned, ∀ o, (p, o) ∈ offsets → IsPast (o + 1) (position k.group k.topic p)) :
    k.raised assigned offsets position = position := by
  funext group topic p
  by_cases hp : group = k.group ∧ topic = k.topic ∧ p ∈ assigned
  · obtain ⟨rfl, rfl, hp⟩ := hp
    rw [raised_of_mem hp]
    refine foldl_raisedPast_eq_self fun o ho => h p hp o ?_
    obtain ⟨⟨q, o⟩, hpair, rfl⟩ := List.mem_map.mp ho
    obtain ⟨hmem, hq⟩ := List.mem_filter.mp hpair
    obtain rfl : q = p := beq_iff_eq.mp hq
    exact hmem
  · exact raised_of_not hp position

theorem isPast_raised {p o : Int} (hp : p ∈ assigned) (ho : (p, o) ∈ offsets)
    (position : Positions) :
    IsPast (o + 1) (k.raised assigned offsets position k.group k.topic p) := by
  rw [raised_of_mem hp]
  refine isPast_foldl_of_mem (List.mem_map.mpr ⟨(p, o), List.mem_filter.mpr ⟨ho, ?_⟩, rfl⟩) _
  exact beq_self_eq_true p

end Consumer

/-! ## No way back -/

section

variable {σ : Type} [LogStore σ] [LawfulStore σ] {s s' : σ} {group topic : String} {p n : Int}

theorem StoreCall.isPast_on (call : StoreCall) (hs : Sound s)
    (h : IsPast n (position s group topic p)) : IsPast n (position (call.on s) group topic p) := by
  by_cases hcommits : call.Commits group topic
  · cases call with
    | commit group' topic' q next =>
      obtain ⟨rfl, rfl⟩ := hcommits
      have hcommit := LawfulStore.commit_advances group' topic' q next s hs
      rw [ensures_on] at hcommit
      obtain ⟨-, -, hposition⟩ := hcommit
      show IsPast n
        (position (StoreM.on (LogStore.commit group' topic' q next) s).2 group' topic' p)
      split at hposition
      · rw [hposition]
        unfold Positions.advance
        split
        · next heq =>
          obtain ⟨n', hn', hle⟩ := h
          rw [heq.2.2] at hn'
          rw [hn']
          exact ⟨max n' next, rfl, Int.le_trans hle (Int.le_max_left _ _)⟩
        · exact h
      · rw [hposition]
        exact h
    | _ => exact hcommits.elim
  · rw [(call.kept_on hs).position_eq group topic hcommits]
    exact h

/-- No call moves a position back. -/
theorem Reached.isPast {allowed : StoreCall → Prop} (hreached : Reached allowed s s') (hs : Sound s)
    (h : IsPast n (position s group topic p)) : IsPast n (position s' group topic p) :=
  hreached.keeps_of_sound (I := fun s' => IsPast n (position s' group topic p)) hs h
    fun _ call hs₁ hpast _ => call.isPast_on hs₁ hpast

end

/-! ## Commits -/

namespace Consumer

section

variable {σ : Type} [LogStore σ] [DependableStore σ]

/-- What a commit from store `s` comes to, if its heartbeat assigns these partitions to the
consumer. -/
structure Commits (k : Consumer) (now timeout : Nat) (s : σ) (assigned : List Int)
    (offsets : List (Int × Int)) : Prop where
  /-- It fails because of partitions that are not assigned, and for no other reason. -/
  ok_iff : ((k.commit now timeout offsets).on s).1 = .ok () ↔ ∀ po ∈ offsets, po.1 ∈ assigned
  /-- The first one of them is named. -/
  rejected : ∀ before p o rest, offsets = before ++ (p, o) :: rest →
    (∀ po ∈ before, po.1 ∈ assigned) → p ∉ assigned →
      ((k.commit now timeout offsets).on s).1 = .error (.notAssigned k.topic p)
  /-- The position of an assigned partition is the maximum of the old one and what is listed. -/
  raises : ∀ p ∈ assigned,
    position ((k.commit now timeout offsets).on s).2 k.group k.topic p =
      ((position s k.group k.topic p).toList ++
        (Ledger.offsetsAt p offsets).map (· + 1)).max?
  elsewhere : ∀ group topic p, ¬ (group = k.group ∧ topic = k.topic ∧ p ∈ assigned) →
    position ((k.commit now timeout offsets).on s).2 group topic p = position s group topic p
  any_order : ∀ offsets', offsets.Perm offsets' →
    position ((k.commit now timeout offsets').on s).2 =
      position ((k.commit now timeout offsets).on s).2
  /-- Whatever has happened since then, the same commit changes nothing more, as long as the
  consumer is assigned the same partitions. -/
  again : ∀ (s' : σ) (now' timeout' generation : Nat),
    Reached AnyCall ((k.commit now timeout offsets).on s).2 s' →
      ((k.assignment now' timeout').on s').1 = .ok (generation, assigned) →
        position ((k.commit now' timeout' offsets).on s').2 = position s'

variable {k : Consumer} {now timeout generation : Nat} {s : σ} {assigned : List Int}

/-- Asking what is assigned moves no position. -/
theorem ensures_assignment_position (hs : Sound s) :
    Ensures (k.assignment now timeout) s fun _ s' => Sound s' ∧ position s' = position s := by
  have hcalls : Calls (fun call => ∀ group topic, ¬ call.Commits group topic)
      (k.assignment now timeout : StoreM σ (Nat × List Int)) :=
    k.calls_assignment fun _ _ => False.elim
  refine (hcalls s).mono fun _ s' hreached => ⟨hreached.sound hs, ?_⟩
  funext group topic p
  exact hreached.position_eq hs (fun _ hcall => hcall group topic) p

/-- A commit from the partitions that are assigned. -/
theorem ensures_commit_raised (hs : Sound s)
    (hassigned : ((k.assignment now timeout).on s).1 = .ok (generation, assigned))
    (offsets : List (Int × Int)) :
    Ensures (k.commit now timeout offsets) s fun result s' =>
      result = ((offsets.map (·.1)).find? fun p => !assigned.contains p).elim (.ok ())
        (fun p => .error (.notAssigned k.topic p)) ∧
      position s' = k.raised assigned offsets (position s) := by
  have htold : Ensures (k.assignment now timeout) s fun result _ =>
      result = .ok (generation, assigned) := hassigned
  unfold commit
  rw [ensures_bind]
  refine (htold.and (ensures_assignment_position hs)).mono ?_
  rintro _ s₁ ⟨rfl, hs₁, hsame⟩
  dsimp only
  rw [ensures_bind]
  refine (k.ensures_raised assigned offsets none hs₁).mono ?_
  rintro _ s₂ ⟨rfl, hposition⟩
  rw [hsame] at hposition
  rw [Option.none_or]
  dsimp only
  cases (offsets.map (·.1)).find? fun p => !assigned.contains p with
  | none => exact ⟨rfl, hposition⟩
  | some p => exact ⟨rfl, hposition⟩

/-- All partitions are assigned if none is found that is not. -/
theorem find?_unassigned_eq_none {offsets : List (Int × Int)} :
    ((offsets.map (·.1)).find? fun p => !assigned.contains p) = none ↔
      ∀ po ∈ offsets, po.1 ∈ assigned := by
  simp

/-- A commit touches what is assigned to the consumer, whatever the list. -/
theorem commits_of_assignment (hs : Sound s)
    (hassigned : ((k.assignment now timeout).on s).1 = .ok (generation, assigned))
    (offsets : List (Int × Int)) : k.Commits now timeout s assigned offsets := by
  obtain ⟨hresult, hposition⟩ := ensures_on.mp (ensures_commit_raised hs hassigned offsets)
  constructor
  case ok_iff =>
    rw [hresult, ← find?_unassigned_eq_none]
    cases (offsets.map (·.1)).find? fun p => !assigned.contains p with
    | none => exact iff_of_true rfl rfl
    | some p => exact iff_of_false nofun nofun
  case rejected =>
    rintro before p o rest rfl hbefore hp
    have hfind : (((before ++ (p, o) :: rest).map (·.1)).find? fun p => !assigned.contains p) =
        some p := by
      rw [List.map_append, List.find?_append, find?_unassigned_eq_none.mpr hbefore, Option.none_or]
      exact List.find?_cons_of_pos (by simpa using hp)
    rw [hresult, hfind]
    rfl
  case raises =>
    intro p hp
    rw [hposition, raised_of_mem hp, foldl_raisedPast]
  case elsewhere =>
    intro group topic p hp
    rw [hposition, raised_of_not hp]
  case any_order =>
    intro offsets' hperm
    obtain ⟨-, hposition'⟩ := ensures_on.mp (ensures_commit_raised hs hassigned offsets')
    rw [hposition, hposition', raised_perm hperm]
  case again =>
    intro s' now' timeout' generation' hreached hassigned'
    have hsound : Sound ((k.commit now timeout offsets).on s).2 :=
      (k.calls_commit offsets trivial (fun _ _ _ => trivial) s : Reached AnyCall s _).sound hs
    have hs' : Sound s' := hreached.sound hsound
    obtain ⟨-, hposition'⟩ := ensures_on.mp (ensures_commit_raised hs' hassigned' offsets)
    rw [hposition']
    -- everything listed has been committed, and nothing has moved back since then
    refine raised_eq_self fun p hp o ho => hreached.isPast hsound ?_
    rw [hposition]
    exact isPast_raised hp ho _

end

end Consumer

/-! ## On either store -/

namespace TableLog

variable {s : TableLog} {group topic : String} {now member timeout : Nat}

/-- Whatever the clock shows, a timeout in words does not reach into the future. -/
theorem cutoff_le_now (htimeout : (timeout : Int) ≤ maxSigned64) : cutoff now timeout ≤ now := by
  by_cases hnow : (now : Int) ≤ maxSigned64
  · exact cutoff_le hnow htimeout
  · have hword : cutoff now timeout ≤ maxSigned64 := by
      rw [cutoff, toWord_eq_ite]
      simp only [maxSigned64]
      omega
    exact Int.le_trans hword (Int.le_of_lt (Int.not_le.mp hnow))

/-- Who has sent the heartbeat is told of, also if it had been removed before. -/
theorem sender_of_heartbeat {m : Membership} (hmember : member ≤ maxWord64)
    (htimeout : (timeout : Int) ≤ maxSigned64)
    (h : (s.heartbeat now group topic member timeout).1 = .ok m) : member ∈ m.members := by
  obtain ⟨rejoined, fresh, hfresh, hmem⟩ := mem_of_heartbeat h
  exact (hmem member).mpr ⟨now, lastHeard_refresh_self hmember hfresh, cutoff_le_now htimeout⟩

/-- The number of a member is its own: it has a row in the group, or nobody has one. -/
def Admits (s : TableLog) (group topic : String) (member : Nat) : Prop :=
  (∃ r ∈ s.members, r.id = toWord member ∧ inGroup group topic r = true) ∨
    ∀ r ∈ s.members, r.id ≠ toWord member

/-- A heartbeat succeeds for those who have a number of their own, and otherwise changes nothing. -/
theorem heartbeat_cases (s : TableLog) (now : Nat) (group topic : String) (member timeout : Nat) :
    (s.Admits group topic member ∧ ∃ m, (s.heartbeat now group topic member timeout).1 = .ok m) ∨
      (¬ s.Admits group topic member ∧
        s.heartbeat now group topic member timeout = (.error memberTaken, s)) := by
  unfold heartbeat
  cases hrefresh : s.refresh now group topic (toWord member) with
  | ok refreshed =>
    refine .inl ⟨?_, _, rfl⟩
    exact (members_refresh hrefresh).imp (·.2) (·.2)
  | error e =>
    unfold refresh at hrefresh
    split at hrefresh
    · cases hrefresh
    · next hnone =>
      unfold insertMember at hrefresh
      split at hrefresh
      · next htaken =>
        obtain rfl : memberTaken = e := Except.error.inj hrefresh
        refine .inr ⟨?_, rfl⟩
        rintro (⟨r, hr, hid, hin⟩ | hfree)
        · exact hnone (List.any_eq_true.mpr ⟨r, hr, Bool.and_eq_true_iff.mpr
            ⟨beq_iff_eq.mpr hid, hin⟩⟩)
        · obtain ⟨r, hr, hid⟩ := List.any_eq_true.mp htaken
          rw [beq_iff_eq] at hid
          dsimp only at hid
          exact hfree r hr hid
      · cases hrefresh

end TableLog

/-- A failed heartbeat ends a commit. -/
theorem Consumer.commit_eq_of_failed {σ : Type} [LogStore σ] {k : Consumer}
    (hopen : k.closed = false) {now timeout : Nat} {s s' : σ} {e : BrokerError}
    (h : (LogStore.heartbeat now k.group k.topic k.id timeout).on s = (.error e, s'))
    (offsets : List (Int × Int)) : (k.commit now timeout offsets).on s = (.error e, s') := by
  have hbeat : Ensures (LogStore.heartbeat now k.group k.topic k.id timeout) s fun result after =>
      result = .error e ∧ after = s' := ensures_on.mpr (by rw [h]; exact ⟨rfl, rfl⟩)
  have hcommit : Ensures (k.commit now timeout offsets) s fun result after =>
      result = .error e ∧ after = s' := by
    unfold commit assignment
    rw [hopen, if_neg Bool.false_ne_true, ensures_bind, ensures_bind]
    refine hbeat.mono ?_
    rintro _ _ ⟨rfl, rfl⟩
    exact ⟨rfl, rfl⟩
  exact Prod.ext hcommit.1 hcommit.2

/-- A commit of an open consumer whose session timeout fits into a signed word touches exactly the
consumer's share in the membership that its heartbeat tells, to which the consumer belongs in every
case. In memory this holds of every store. In tables it holds of every store in which the number of
the consumer is its own. If the number is taken in another group, then the database refuses the
heartbeat, and the commit changes nothing at all. -/
theorem Consumer.commit_touches_share (k : Consumer) (hopen : k.closed = false) {timeout : Nat}
    (htimeout : (timeout : Int) ≤ maxSigned64) (now : Nat) (offsets : List (Int × Int)) :
    (∀ s : MemoryLog, ∃ m,
      ((LogStore.heartbeat now k.group k.topic k.id timeout).on s).1 = .ok m ∧
        k.id ∈ m.members ∧ k.Commits now timeout s (m.share k.partitions k.id) offsets) ∧
    (∀ s : TableLog, s.Sound → k.id ≤ maxWord64 → s.Admits k.group k.topic k.id → ∃ m,
      ((LogStore.heartbeat now k.group k.topic k.id timeout).on s).1 = .ok m ∧
        k.id ∈ m.members ∧ k.Commits now timeout s (m.share k.partitions k.id) offsets) ∧
    (∀ s : TableLog, ¬ s.Admits k.group k.topic k.id →
      (k.commit now timeout offsets).on s = (.error TableLog.memberTaken, s)) := by
  refine ⟨fun s => ?memory, fun s hs hid hadmits => ?tables, fun s htaken => ?taken⟩
  case memory =>
    have hmem := (s.spares_heartbeat k.group k.topic now k.id timeout).sender
    exact ⟨_, rfl, hmem, commits_of_assignment trivial (assignment_eq_share hopen rfl hmem) offsets⟩
  case tables =>
    rcases s.heartbeat_cases now k.group k.topic k.id timeout with ⟨-, m, hbeat⟩ | ⟨htaken, -⟩
    · have hmem := TableLog.sender_of_heartbeat hid htimeout hbeat
      have hassigned := assignment_eq_share hopen hbeat hmem
      exact ⟨m, hbeat, hmem, commits_of_assignment hs hassigned offsets⟩
    · exact absurd hadmits htaken
  case taken =>
    rcases s.heartbeat_cases now k.group k.topic k.id timeout with ⟨hadmits, -⟩ | ⟨-, hfailed⟩
    · exact absurd hadmits htaken
    · exact commit_eq_of_failed (σ := TableLog) hopen hfailed offsets

/-- The second of two members, who share four partitions. -/
def secondOfTwo : Consumer := { id := 2, broker := 0, group := "g", topic := "t", partitions := 4 }

/-- It commits in two of its partitions, in one of the first member's between them, and in one that
does not exist. -/
theorem Consumer.commit_touches_share_between : ∃ m : Membership,
    ((LogStore.heartbeat 600 "g" "t" 2 1000).on Broker.neighbors).1 = .ok m ∧
      m.share 4 2 = [1, 3] ∧
      let after := (secondOfTwo.commit 600 1000 [(3, 5), (0, 9), (3, 2), (7, 1), (1, -3)]).on
        Broker.neighbors
      after.1 = .error (.notAssigned "t" 0) ∧ position after.2 "g" "t" 3 = some 6 ∧
        position after.2 "g" "t" 1 = some (-2) ∧ position after.2 "g" "t" 0 = none := by
  have hsound : Broker.neighbors.Sound :=
    (LawfulStore.join_steady 500 "g" "t" _
      (LawfulStore.join_steady 0 "g" "t" TableLog.empty TableLog.sound_empty).sound).sound
  have hadmits : Broker.neighbors.Admits "g" "t" 2 := .inl (by decide +kernel)
  have htells : ((LogStore.heartbeat 600 "g" "t" 2 1000).on Broker.neighbors).1 =
      .ok ⟨2, [1, 2]⟩ := by
    show Except.ok (TableLog.membership _ "g" "t") = _
    unfold TableLog.membership
    dsimp only
    rw [List.mergeSort_of_pairwise (by decide +kernel)]
    exact Broker.eq_ok_of_toOption (by decide +kernel)
  have htimeout : ((1000 : Nat) : Int) ≤ maxSigned64 := by decide
  obtain ⟨-, htables, -⟩ := secondOfTwo.commit_touches_share rfl htimeout 600
    [(3, 5), (0, 9), (3, 2), (7, 1), (1, -3)]
  obtain ⟨m, hbeat, -, hcommits⟩ := htables Broker.neighbors hsound (by decide) hadmits
  obtain rfl := Except.ok.inj (htells.symm.trans hbeat)
  have hshare : (⟨2, [1, 2]⟩ : Membership).share 4 2 = [1, 3] := by decide +kernel
  refine ⟨_, htells, hshare, ?_, ?_, ?_, ?_⟩
  · exact hcommits.rejected [(3, 5)] 0 9 [(3, 2), (7, 1), (1, -3)] rfl (by decide +kernel)
      (by decide +kernel)
  · exact (hcommits.raises 3 (by decide +kernel)).trans (by decide +kernel)
  · exact (hcommits.raises 1 (by decide +kernel)).trans (by decide +kernel)
  · exact (hcommits.elsewhere "g" "t" 0 (by decide +kernel)).trans (by decide +kernel)

end WorkQueue
