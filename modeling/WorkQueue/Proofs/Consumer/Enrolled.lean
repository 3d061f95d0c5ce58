import WorkQueue.Proofs.Consumer.Alone
import WorkQueue.Proofs.Ledger.Appended
import WorkQueue.Proofs.Store.Dependable

/-!
# A member that stays one

A consumer that is alone in its group stays a member as long as it is in time, and then its commits
succeed. So the positions of the group are where its own commits have put them.

## Main definitions

* `raisedPast`, `raisedTo`: a position behind a commit, and behind several
* `Consumer.raised`: all positions behind a commit of a consumer
* `Consumer.Enrolled`: a member whose group has certain positions
* `Consumer.Minds`: calls that leave the member and the positions alone

## Main statements

* `Reached.enrolled`: such calls keep it
* `Consumer.ensures_raised`: what a consumer commits if some partitions are assigned to it
* `Consumer.ensures_enrolled`: a commit raises the positions past the offsets that it names
-/

namespace WorkQueue

open StoreView GroupStore DependableStore

/-- A position behind a commit of an offset. It is raised past the offset, unless it is further
already. -/
def raisedPast (position : Option Int) (o : Int) : Option Int :=
  some (max (position.getD (o + 1)) (o + 1))

/-- Of ascending offsets the last one counts. -/
theorem raisedPast_raisedPast {o o' : Int} (h : o ≤ o') (position : Option Int) :
    raisedPast (raisedPast position o) o' = raisedPast position o' := by
  unfold raisedPast
  congr 1
  cases position with
  | none =>
    simp only [Option.getD_none, Option.getD_some]
    omega
  | some n =>
    simp only [Option.getD_some]
    omega

/-- Where commits of ascending offsets put a position: past the last one, if there is one. -/
def raisedTo (start : Option Int) (offsets : List Int) : Option Int :=
  offsets.getLast?.elim start (raisedPast start)

/-- It is enough to commit the last of those that are new. -/
theorem raisedTo_append {offsets more : List Int} (h : (offsets ++ more).Pairwise (· < ·))
    (start : Option Int) :
    more.getLast?.toList.foldl raisedPast (raisedTo start offsets) =
      raisedTo start (offsets ++ more) := by
  unfold raisedTo
  rw [List.getLast?_append]
  cases hlast' : more.getLast? with
  | none => rfl
  | some o' =>
    cases hlast : offsets.getLast? with
    | none => rfl
    | some o =>
      have hlt := (List.pairwise_append.mp h).2.2 o (List.mem_of_getLast? hlast) o'
        (List.mem_of_getLast? hlast')
      exact raisedPast_raisedPast (Int.le_of_lt hlt) start

variable {σ : Type} [LogStore σ] [DependableStore σ] {k : Consumer} {s s' : σ}
  {start : Int → Option Int}

/-- The consumer is a member of its group, and the group's positions are those of `start`. -/
structure Consumer.Enrolled (k : Consumer) (start : Int → Option Int) (s : σ) : Prop where
  member : k.id ∈ (roster s k.group k.topic).members
  position : ∀ p, position s k.group k.topic p = start p

/-- A call that commits nothing for the group, and has to do with it only as a heartbeat of the
consumer in time. -/
def Consumer.Minds (σ : Type) [LogStore σ] [DependableStore σ] (k : Consumer) (call : StoreCall) :
    Prop :=
  call.By (Valid σ) ∧ ¬ call.Commits k.group k.topic ∧
    (call.Concerns k.group k.topic → ∃ now timeout, Timely σ now timeout ∧
      call = .heartbeat now k.group k.topic k.id timeout)

theorem Reached.enrolled {allowed : StoreCall → Prop} (h : Reached allowed s s') (ho : Orderly s)
    (hallowed : ∀ call, allowed call → k.Minds σ call) (hk : k.Enrolled start s) :
    k.Enrolled start s' := by
  have hkept : Orderly s' ∧ k.id ∈ (roster s' k.group k.topic).members := by
    refine h.keeps_of_orderly (I := fun s' => k.id ∈ (roster s' k.group k.topic).members) ho
      (fun call hcall => (hallowed call hcall).1) hk.member ?_
    intro s₁ call ho₁ hmember hcall
    obtain ⟨hby, -, hconcerns⟩ := hallowed call hcall
    by_cases hgroup : call.Concerns k.group k.topic
    · obtain ⟨now, timeout, htimely, rfl⟩ := hconcerns hgroup
      exact (heartbeat_member now k.group k.topic k.id timeout s₁ ho₁ hmember htimely).2
    · rw [(roster_on call s₁ ho₁ hby k.group k.topic).2 hgroup]
      exact hmember
  refine ⟨hkept.2, fun p => ?_⟩
  rw [h.position_eq (sound_of_orderly s ho) (fun call hcall => (hallowed call hcall).2.1) p]
  exact hk.position p

/-! ## Commits -/

/-- A member that is alone is told all partitions. -/
theorem Consumer.ensures_whole (ho : Orderly s) (hid : Valid σ k.id) (halone : k.Alone s)
    (hopen : k.closed = false) (hmember : k.id ∈ (roster s k.group k.topic).members)
    {now timeout : Nat} (htimely : Timely σ now timeout) :
    Ensures (k.assignment now timeout) s fun result _ =>
      ∃ generation, result = .ok (generation, k.whole) := by
  obtain ⟨⟨m, hbeat⟩, hkept⟩ := ensures_on.mp
    (heartbeat_member now k.group k.topic k.id timeout s ho hmember htimely)
  obtain ⟨htells, -⟩ := ensures_on.mp
    (heartbeat_tells now k.group k.topic k.id timeout s ho hid)
  have hmem : k.id ∈ m.members := (htells m hbeat).1 ▸ hkept
  have hshare : Ensures (k.assignment now timeout) s fun result _ =>
      result = .ok (m.generation, m.share k.partitions k.id) := assignment_eq_share hopen hbeat hmem
  refine (hshare.and (ensures_assigned ho hid halone now timeout)).mono ?_
  rintro result s' ⟨rfl, hassigned⟩
  exact ⟨m.generation, by rw [hassigned _ _ rfl]⟩

/-- The positions behind a commit of a consumer: those of assigned partitions are raised past one
offset after the other, and the others are left alone. -/
def Consumer.raised (k : Consumer) (assigned : List Int) (offsets : List (Int × Int))
    (position : Positions) : Positions :=
  fun group topic p =>
    if group = k.group ∧ topic = k.topic ∧ p ∈ assigned then
      (Ledger.offsetsAt p offsets).foldl raisedPast (position group topic p)
    else position group topic p

theorem Consumer.raised_nil (k : Consumer) (assigned : List Int) (position : Positions) :
    k.raised assigned [] position = position := by
  funext group topic p
  exact ite_self _

theorem Consumer.raised_cons_of_mem (k : Consumer) {assigned : List Int} {q : Int}
    (hq : q ∈ assigned) (o : Int) (rest : List (Int × Int)) (position : Positions) :
    k.raised assigned ((q, o) :: rest) position =
      k.raised assigned rest (position.advance k.group k.topic q (o + 1)) := by
  funext group topic p
  unfold raised Positions.advance
  by_cases hp : p = q
  · by_cases hgroup : group = k.group ∧ topic = k.topic
    · obtain ⟨rfl, rfl⟩ := hgroup
      simp [Ledger.offsetsAt, hp, hq, raisedPast]
    · have hother : ∀ c : Prop, ¬ (group = k.group ∧ topic = k.topic ∧ c) :=
        fun _ heq => hgroup ⟨heq.1, heq.2.1⟩
      rw [if_neg (hother _), if_neg (hother _), if_neg (hother _)]
  · simp [Ledger.offsetsAt, hp, Ne.symm hp]

theorem Consumer.raised_cons_of_not_mem (k : Consumer) {assigned : List Int} {q : Int}
    (hq : q ∉ assigned) (o : Int) (rest : List (Int × Int)) (position : Positions) :
    k.raised assigned ((q, o) :: rest) position = k.raised assigned rest position := by
  funext group topic p
  unfold raised
  refine ite_congr rfl (fun hp => ?_) fun _ => rfl
  have hne : q ≠ p := fun heq => hq (heq ▸ hp.2.2)
  simp [Ledger.offsetsAt, hne]

/-- If all partitions are assigned, it does not matter which others are. -/
theorem Consumer.raised_eq_of_subset (k : Consumer) {assigned : List Int}
    {offsets : List (Int × Int)} (hassigned : ∀ po ∈ offsets, po.1 ∈ assigned)
    (position : Positions) (p : Int) :
    k.raised assigned offsets position k.group k.topic p =
      (Ledger.offsetsAt p offsets).foldl raisedPast (position k.group k.topic p) := by
  unfold raised
  by_cases hp : p ∈ assigned
  · rw [if_pos ⟨rfl, rfl, hp⟩]
  · have hnone : Ledger.offsetsAt p offsets = [] := by
      unfold Ledger.offsetsAt
      rw [List.map_eq_nil_iff, List.filter_eq_nil_iff]
      intro po hpo heq
      exact hp (beq_iff_eq.mp heq ▸ hassigned po hpo)
    rw [if_neg fun h => hp h.2.2, hnone, List.foldl_nil]

/-- Every pair is tried, and the first partition that is not assigned is told. -/
theorem Consumer.ensures_raised (k : Consumer) (assigned : List Int) (offsets : List (Int × Int))
    (rejected : Option Int) (hs : Sound s) :
    Ensures (k.commitAll assigned offsets rejected) s fun result s' =>
      result = .ok (rejected.or ((offsets.map (·.1)).find? fun p => !assigned.contains p)) ∧
        position s' = k.raised assigned offsets (position s) := by
  induction offsets generalizing s rejected with
  | nil => exact ⟨congrArg Except.ok (Option.or_none).symm, (k.raised_nil assigned _).symm⟩
  | cons first rest ih =>
    obtain ⟨q, o⟩ := first
    unfold commitAll
    rw [List.map_cons]
    by_cases hq : q ∈ assigned
    · rw [if_pos (List.contains_iff_mem.mpr hq), ensures_bind, k.raised_cons_of_mem hq,
        List.find?_cons_of_neg (by simpa using hq)]
      refine ((LawfulStore.commit_advances k.group k.topic q (o + 1) s hs).and
        (commit_done k.group k.topic q (o + 1) s)).mono ?_
      rintro _ s₁ ⟨⟨hs₁, -, hadvance⟩, rfl⟩
      rw [← hadvance]
      exact ih rejected hs₁
    · rw [if_neg (by simpa using hq), k.raised_cons_of_not_mem hq,
        List.find?_cons_of_pos (by simpa using hq)]
      refine (ih (rejected <|> some q) hs).mono ?_
      rintro _ s' ⟨rfl, hposition⟩
      refine ⟨?_, hposition⟩
      -- whatever has been rejected before comes first
      cases rejected with
      | none => rfl
      | some p => rfl

/-- A commit of a member that is alone raises the positions past the offsets. -/
theorem Consumer.ensures_enrolled (ho : Orderly s) (hid : Valid σ k.id) (halone : k.Alone s)
    (hopen : k.closed = false) (hk : k.Enrolled start s) {now timeout : Nat}
    (htimely : Timely σ now timeout) {offsets : List (Int × Int)}
    (hwhole : ∀ po ∈ offsets, po.1 ∈ k.whole) :
    Ensures (k.commit now timeout offsets) s fun _ s' =>
      k.Enrolled (fun p => (Ledger.offsetsAt p offsets).foldl raisedPast (start p)) s' := by
  have hasks : Calls (k.Minds σ) (k.assignment now timeout : StoreM σ (Nat × List Int)) :=
    k.calls_assignment ⟨hid, False.elim, fun _ => ⟨now, timeout, htimely, rfl⟩⟩
  have hfair : Calls (Fair σ) (k.assignment now timeout : StoreM σ (Nat × List Int)) :=
    k.calls_assignment hid
  unfold commit
  rw [ensures_bind]
  have hwhole₁ := ensures_whole ho hid halone hopen hk.member htimely
  refine (((hasks s).and (hfair s)).and hwhole₁).mono ?_
  rintro result s₁ ⟨⟨hreached, hfair⟩, generation, rfl⟩
  have ho₁ := (hfair.roster_later ho (fun _ hcall => hcall) "" "").1
  have hk₁ := hreached.enrolled ho (fun _ hcall => hcall) hk
  -- commits have nothing to do with members
  have hcommits : Calls (fun call => Fair σ call ∧ ¬ call.Concerns k.group k.topic)
      (k.commitAll k.whole offsets none : StoreM σ (Option Int)) :=
    k.calls_commitAll k.whole offsets none fun _ _ _ _ => ⟨trivial, False.elim⟩
  have hcommitted : Ensures (k.commitAll k.whole offsets none : StoreM σ (Option Int)) s₁
      fun _ s' => k.Enrolled
        (fun p => (Ledger.offsetsAt p offsets).foldl raisedPast (start p)) s' := by
    refine ((hcommits s₁).and
      (k.ensures_raised k.whole offsets none (sound_of_orderly s₁ ho₁))).mono ?_
    rintro _ s' ⟨hreached', -, hposition⟩
    have hsame := hreached'.roster_eq ho₁ (fun _ hcall => hcall.1) fun _ hcall => hcall.2
    refine ⟨?_, fun p => ?_⟩
    · rw [hsame]
      exact hk₁.member
    · rw [hposition, k.raised_eq_of_subset hwhole, hk₁.position]
  dsimp only
  refine hcommitted.bind (fun rejected s' hs' => ?_) fun _ _ hs' => hs'
  cases rejected with
  | none => exact hs'
  | some p => exact hs'

end WorkQueue
