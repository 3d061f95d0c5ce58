import WorkQueue.Proofs.Store.Dependable

/-!
# Stores that remove only who is late

A member that has been heard of at some time is not removed by anybody's heartbeat before its timeout
has passed. So it is enough to know of each member a time at which it was heard of: its own
heartbeats make that time later, and nothing that others do makes it earlier.

## Main definitions

* `StoreCall.Bears`: a call by which nobody heard of at a time is late
* `PatientStore`: a store that removes only who is late

## Main statements

* `Reached.heard`: who is in time is still heard of behind any number of calls
* `PatientStore MemoryLog`, `PatientStore TableLog`
-/

namespace WorkQueue

open GroupStore DependableStore

/-- A call by which a member heard of at `time` is not late, and does not leave. -/
def StoreCall.Bears (σ : Type) [LogStore σ] [DependableStore σ] (group topic : String)
    (member time : Nat) : StoreCall → Prop
  | .join now _ _ => time ≤ now
  | .heartbeat now _ _ _ timeout => time ≤ now ∧ now ≤ time + timeout ∧ Timely σ now timeout
  | .leave g t id => ¬ (g = group ∧ t = topic ∧ id = member)
  | _ => True

/-- A dependable store that removes only who is late. -/
class PatientStore (σ : Type) [LogStore σ] extends DependableStore σ where
  /-- A member of a group that was heard of at `time` or later. -/
  Heard (s : σ) (group topic : String) (member time : Nat) : Prop
  member_of_heard {s : σ} {group topic : String} {member time : Nat} (hs : Orderly s)
    (h : Heard s group topic member time) : member ∈ (roster s group topic).members
  heard_on {s : σ} {group topic : String} {member time : Nat} (call : StoreCall) (hs : Orderly s)
    (hby : call.By Valid) (hbears : call.Bears σ group topic member time)
    (h : Heard s group topic member time) : Heard (call.on s) group topic member time
  join_heard (now : Nat) (group topic : String) (s : σ) (h : Orderly s) :
    Ensures (LogStore.join now group topic) s fun result s' => ∀ id, result = .ok id →
      Heard s' group topic id now
  heartbeat_heard (now : Nat) (group topic : String) (member timeout : Nat) (s : σ) (h : Orderly s)
    (hmember : member ∈ (roster s group topic).members) (htimely : Timely now timeout) :
    Ensures (LogStore.heartbeat now group topic member timeout) s fun _ s' =>
      Heard s' group topic member now
  /-- Nobody is told that it has left who only asks. -/
  committed_ne_closed (group topic : String) (partition : Int) (s : σ) :
    Ensures (LogStore.committed group topic partition) s fun result _ => result ≠ .error .closed
  read_ne_closed (topic : String) (partition start : Int) (limit : Nat) (s : σ) :
    Ensures (LogStore.read topic partition start limit) s fun result _ => result ≠ .error .closed

open PatientStore

section

variable {σ : Type} [LogStore σ] [PatientStore σ] {s s' : σ} {allowed : StoreCall → Prop}

/-- Who is in time is still heard of behind any number of calls. -/
theorem Reached.heard (h : Reached allowed s s') (hs : Orderly s) {group topic : String}
    {member time : Nat} (hallowed : ∀ call, allowed call → call.By (Valid σ) ∧
      call.Bears σ group topic member time) (hheard : Heard s group topic member time) :
    Heard s' group topic member time := by
  refine (h.keeps_of_orderly (I := fun s' => Heard s' group topic member time) hs
    (fun call hcall => (hallowed call hcall).1) hheard ?_).2
  intro s₁ call hs₁ hheard₁ hcall
  obtain ⟨hby, hbears⟩ := hallowed call hcall
  exact heard_on call hs₁ hby hbears hheard₁

end

/-! ## In memory -/

namespace MemoryLog

/-- A member that was heard of at `time` or later. -/
def Heard (s : MemoryLog) (group topic : String) (member time : Nat) : Prop :=
  ∃ seen, time ≤ seen ∧ (member, seen) ∈ (s.group group topic).members

variable {s s' : MemoryLog} {group topic : String} {member time : Nat}

theorem heard_congr (hgroup : s'.group group topic = s.group group topic) :
    s'.Heard group topic member time ↔ s.Heard group topic member time := by
  unfold Heard
  rw [hgroup]

/-- Calls that have nothing to do with groups leave them as they are. -/
theorem group_on_of_not_concerns (hs : s.Orderly) {call : StoreCall}
    (h : ∀ group topic, ¬ call.Concerns group topic) (group topic : String) :
    (call.on s).group group topic = s.group group topic := by
  rcases group_on hs call with hsame | ⟨group', topic', -, hconcerns, -⟩
  · exact hsame group topic
  · exact absurd hconcerns (h group' topic')

/-- A group in which the member is still heard of takes the place of one. -/
theorem Heard.setGroup (h : s.Heard group topic member time) (group' topic' : String) {g : Group}
    (hg : group = group' ∧ topic = topic' → ∃ seen, time ≤ seen ∧ (member, seen) ∈ g.members) :
    (s.setGroup group' topic' g).Heard group topic member time := by
  unfold Heard
  rw [group_setGroup]
  split
  · next heq => exact hg heq
  · exact h

theorem heard_heartbeat (hs : s.Orderly) {now timeout : Nat} (id : Nat) (group' topic' : String)
    (hnow : time ≤ now) (hintime : now ≤ time + timeout) (h : s.Heard group topic member time) :
    (s.setGroup group' topic' ((s.group group' topic').heartbeat now id timeout)).Heard
      group topic member time := by
  apply h.setGroup
  rintro ⟨rfl, rfl⟩
  obtain ⟨seen, hle, hmem⟩ := h
  by_cases heq : member = id
  · exact ⟨now, hnow, (Group.mem_members_heartbeat (hs group topic)).mpr (.inl ⟨heq, rfl⟩)⟩
  · exact ⟨seen, hle, (Group.mem_members_heartbeat (hs group topic)).mpr
      (.inr ⟨heq, hmem, by omega⟩)⟩

theorem heard_join (hs : s.Orderly) {now : Nat} (group' topic' : String) (hnow : time ≤ now)
    (h : s.Heard group topic member time) :
    (s.join now group' topic').2.Heard group topic member time := by
  have hlast : Heard { s with lastMember := s.lastMember + 1 } group topic member time := h
  refine hlast.setGroup group' topic' ?_
  rintro ⟨rfl, rfl⟩
  obtain ⟨seen, hle, hmem⟩ := h
  by_cases heq : member = s.lastMember + 1
  · exact ⟨now, hnow, (Group.mem_join (hs group topic)).mpr (.inl ⟨heq, rfl⟩)⟩
  · exact ⟨seen, hle, (Group.mem_join (hs group topic)).mpr (.inr ⟨heq, hmem⟩)⟩

theorem heard_leave (id : Nat) (group' topic' : String)
    (hother : ¬ (group' = group ∧ topic' = topic ∧ id = member))
    (h : s.Heard group topic member time) :
    (StoreCall.on (.leave group' topic' id) s).Heard group topic member time := by
  unfold Heard
  rw [group_leave]
  split
  · next heq =>
    obtain ⟨rfl, rfl⟩ := heq
    obtain ⟨seen, hle, hmem⟩ := h
    exact ⟨seen, hle, Group.mem_members_leave.mpr ⟨fun heq => hother ⟨rfl, rfl, heq.symm⟩, hmem⟩⟩
  · exact h

theorem ne_closed_of_log {topic : String} {p : Int} {e : BrokerError} (h : s.log topic p = .error e) :
    e ≠ .closed := by
  unfold log at h
  split at h
  · obtain rfl := Except.error.inj h
    exact BrokerError.noConfusion
  · split at h
    · obtain rfl := Except.error.inj h
      exact BrokerError.noConfusion
    · split at h
      · cases h
      · obtain rfl := Except.error.inj h
        exact BrokerError.noConfusion

instance : PatientStore MemoryLog where
  Heard := Heard
  member_of_heard := by
    rintro s group topic member time - ⟨seen, -, hmem⟩
    exact List.mem_map_of_mem (f := (·.1)) hmem
  heard_on {s group topic member time} call hs _ hbears h := by
    cases call with
    | join now group' topic' => exact heard_join hs group' topic' hbears h
    | heartbeat now group' topic' id timeout =>
      exact heard_heartbeat hs id group' topic' hbears.1 hbears.2.1 h
    | leave group' topic' id => exact heard_leave id group' topic' hbears h
    | _ => exact (heard_congr (group_on_of_not_concerns hs (fun _ _ => id) group topic)).mpr h
  join_heard now group topic s hs := by
    rw [ensures_on]
    intro id hid
    obtain rfl := Except.ok.inj hid
    refine ⟨now, Nat.le_refl _, ?_⟩
    show (s.lastMember + 1, now) ∈ ((s.join now group topic).2.group group topic).members
    unfold join
    rw [group_setGroup, if_pos ⟨rfl, rfl⟩]
    exact (Group.mem_join (hs group topic)).mpr (.inl ⟨rfl, rfl⟩)
  heartbeat_heard now group topic member timeout s hs _ _ := by
    refine ⟨now, Nat.le_refl _, ?_⟩
    show (member, now) ∈ ((s.setGroup group topic _).group group topic).members
    rw [group_setGroup, if_pos ⟨rfl, rfl⟩]
    exact (Group.mem_members_heartbeat (hs group topic)).mpr (.inl ⟨rfl, rfl⟩)
  committed_ne_closed _ _ _ _ := nofun
  read_ne_closed topic p start limit s := by
    rw [ensures_on]
    show s.read topic p start limit ≠ .error .closed
    unfold read
    cases hlog : s.log topic p with
    | error e => exact fun heq => ne_closed_of_log hlog (Except.error.inj heq)
    | ok found => exact nofun

end MemoryLog

/-! ## In tables -/

namespace TableLog

/-- A member that was heard of at `time` or later. -/
def Heard (s : TableLog) (group topic : String) (member time : Nat) : Prop :=
  ∃ r ∈ s.members, inGroup group topic r = true ∧ r.id = member ∧ (time : Int) ≤ r.lastSeen

variable {s s' fresh : TableLog} {group topic group' topic' : String} {member time now : Nat}

theorem Heard.congr (h : s.Heard group topic member time) (hmembers : s'.members = s.members) :
    s'.Heard group topic member time := by
  unfold Heard
  rw [hmembers]
  exact h

/-- A refresh makes nobody's time earlier. -/
theorem heard_refresh {id : Int} {rejoined : Bool} (h : s.Heard group topic member time)
    (hnow : time ≤ now) (hfresh : s.refresh now group' topic' id = .ok (rejoined, fresh)) :
    fresh.Heard group topic member time := by
  obtain ⟨r, hr, hin, hid, hseen⟩ := h
  unfold refresh at hfresh
  split at hfresh
  · obtain ⟨-, rfl⟩ := Prod.mk.inj (Except.ok.inj hfresh)
    refine ⟨refreshed now group' topic' id r, List.mem_map_of_mem hr, ?_, ?_, ?_⟩
    · rw [inGroup_refreshed]
      exact hin
    · rw [id_refreshed]
      exact hid
    · unfold refreshed
      split
      · exact Int.ofNat_le.mpr hnow
      · exact hseen
  · cases hinsert : s.insertMember ⟨id, group', topic', now⟩ with
    | error e => simp [hinsert, bind, Except.bind] at hfresh
    | ok inserted =>
      simp only [hinsert, bind, Except.bind, pure, Except.pure] at hfresh
      obtain ⟨-, rfl⟩ := Prod.mk.inj (Except.ok.inj hfresh)
      obtain ⟨rfl, -⟩ := insertMember_eq_ok hinsert
      exact ⟨r, List.mem_append_left _ hr, hin, hid, hseen⟩

/-- Who is heard of behind the refresh, and not before the cutoff, is not removed. -/
theorem heard_heartbeat_of_refresh {id timeout : Nat} {rejoined : Bool}
    (hfresh : s.refresh now group' topic' (toWord id) = .ok (rejoined, fresh))
    (h : fresh.Heard group topic member time)
    (hcutoff : toWord (now - toWord timeout) ≤ time) :
    (s.heartbeat now group' topic' id timeout).2.Heard group topic member time := by
  obtain ⟨r, hr, hin, hid, hseen⟩ := h
  have hkept : r ∈ fresh.members.filter fun r =>
      !stale group' topic' (toWord (now - toWord timeout)) r := by
    refine List.mem_filter.mpr ⟨hr, ?_⟩
    rw [Bool.not_eq_true', ← Bool.not_eq_true, stale_iff]
    omega
  unfold heartbeat
  rw [hfresh]
  dsimp only
  split
  · exact ⟨r, hkept, hin, hid, hseen⟩
  · exact ⟨r, hkept, hin, hid, hseen⟩

theorem heard_heartbeat {id timeout : Nat} (h : s.Heard group topic member time)
    (hnow : time ≤ now) (hintime : now ≤ time + timeout) (hclock : (now : Int) ≤ maxSigned64)
    (htimeout : (timeout : Int) ≤ maxSigned64) :
    (s.heartbeat now group' topic' id timeout).2.Heard group topic member time := by
  cases hfresh : s.refresh now group' topic' (toWord id) with
  | error e =>
    unfold heartbeat
    rw [hfresh]
    exact h
  | ok found =>
    refine heard_heartbeat_of_refresh hfresh (heard_refresh h hnow hfresh) ?_
    rw [cutoff_eq hclock htimeout]
    omega

theorem heard_join (h : s.Heard group topic member time) :
    (s.join now group' topic').2.Heard group topic member time := by
  obtain ⟨r, hr, hrow⟩ := h
  unfold join
  dsimp only
  split
  · exact ⟨r, hr, hrow⟩
  · split
    · exact ⟨r, hr, hrow⟩
    · next s' hs' =>
      obtain ⟨rfl, -⟩ := insertMember_eq_ok hs'
      exact ⟨r, List.mem_append_left _ hr, hrow⟩

theorem heard_leave {id : Nat} (hid : (id : Int) ≤ maxSigned64)
    (hother : ¬ (group' = group ∧ topic' = topic ∧ id = member))
    (h : s.Heard group topic member time) :
    (s.leave group' topic' id).Heard group topic member time := by
  obtain ⟨r, hr, hin, hrid, hseen⟩ := h
  unfold leave
  dsimp only
  split
  · refine ⟨r, List.mem_filter.mpr ⟨hr, ?_⟩, hin, hrid, hseen⟩
    rw [Bool.not_eq_true', ← Bool.not_eq_true, Bool.and_eq_true, beq_iff_eq, toWord_natCast hid]
    rintro ⟨heq, hin'⟩
    obtain ⟨rfl, rfl⟩ := inGroup_iff.mp hin
    obtain ⟨rfl, rfl⟩ := inGroup_iff.mp hin'
    exact hother ⟨rfl, rfl, by omega⟩
  · exact ⟨r, hr, hin, hrid, hseen⟩

instance : PatientStore TableLog where
  Heard := Heard
  member_of_heard := by
    rintro s group topic member time hs ⟨r, hr, hin, hid, -⟩
    have hword : (member : Int) ≤ maxSigned64 := hid ▸ hs.id_le r hr
    exact mem_rosterOf.mpr ⟨member, mem_idsOf.mpr ⟨r, hr, hin, hid⟩, ofWord_natCast hword⟩
  heard_on {s group topic member time} call hs hby hbears h := by
    cases call with
    | join now group' topic' => exact heard_join h
    | heartbeat now group' topic' id timeout =>
      exact heard_heartbeat h hbears.1 hbears.2.1 hbears.2.2.1 hbears.2.2.2
    | leave group' topic' id => exact heard_leave hby hbears h
    | createTopic topic' n =>
      refine h.congr ?_
      simp only [StoreCall.on, LogStore.createTopic, StoreM.on_update]
      split
      · rfl
      · rfl
    | append topic' p key value =>
      refine h.congr ?_
      show (s.append topic' p key value).2.members = s.members
      rcases s.append_cases topic' p key value with ⟨e, heq⟩ | ⟨offset, heq⟩
      · rw [heq]
      · rw [heq]
    | _ => exact h
  join_heard now group topic s hs := by
    rw [ensures_on]
    show ∀ id, (s.join now group topic).1 = .ok id →
      (s.join now group topic).2.Heard group topic id now
    intro id hid
    rcases join_eq hs now group topic with ⟨e, hjoin⟩ | ⟨fresh, hfresh, high, low, hjoin⟩
    · rw [hjoin] at hid
      cases hid
    · rw [hjoin] at hid ⊢
      obtain rfl := Except.ok.inj hid
      obtain ⟨rfl, -⟩ := insertMember_eq_ok hfresh
      refine ⟨⟨s.lastMember + 1, group, topic, now⟩,
        List.mem_append_right _ (List.mem_singleton_self _), inGroup_iff.mpr ⟨rfl, rfl⟩, ?_,
        Int.le_refl _⟩
      rw [ofWord_eq_toNat low high]
      exact (Int.toNat_of_nonneg low).symm
  heartbeat_heard now group topic member timeout s hs hmember htimely := by
    obtain ⟨hn, hid⟩ := hs.mem_idsOf_of_member hmember
    obtain ⟨r, hr, hin, hrid⟩ := mem_idsOf.mp hn
    have hfresh : s.refresh now group topic member = .ok (false, _) := refresh_eq hn
    rw [← toWord_natCast hid] at hfresh
    refine heard_heartbeat_of_refresh hfresh ?_ (cutoff_le htimely.1 htimely.2)
    refine ⟨refreshed now group topic (toWord member) r, List.mem_map_of_mem hr, ?_, ?_, ?_⟩
    · rw [inGroup_refreshed]
      exact hin
    · rw [id_refreshed]
      exact hrid
    · rw [toWord_natCast hid]
      simp [refreshed, hrid, hin]
  committed_ne_closed _ _ _ _ := nofun
  read_ne_closed topic p start limit s := nofun

end TableLog

end WorkQueue
