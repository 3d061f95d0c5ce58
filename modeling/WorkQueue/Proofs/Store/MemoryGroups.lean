import WorkQueue.Proofs.Store.Groups
import WorkQueue.Proofs.Store.Instances

/-!
# Groups in memory

A group is kept with its members in ascending order. Every call replaces one group or none, and
makes the next generation whenever it changes who is a member.

## Main statements

* `Group.later_heartbeat`: a heartbeat makes a new generation if it changes the members
* `GroupStore MemoryLog`
-/

namespace WorkQueue

open GroupStore

namespace Group

/-- Members are in ascending order. -/
def Ascending (members : List (Nat × Nat)) : Prop := members.Pairwise (·.1 < ·.1)

theorem mem_touch {member now id : Nat} {members : List (Nat × Nat)} :
    id ∈ (touch member now members).map (·.1) ↔ id = member ∨ id ∈ members.map (·.1) := by
  induction members with
  | nil => simp [touch]
  | cons first rest ih =>
    obtain ⟨m, t⟩ := first
    unfold touch
    split
    · simp
    · split
      · next heq =>
        subst heq
        simp
      · rw [List.map_cons, List.mem_cons, ih, List.map_cons, List.mem_cons]
        exact or_left_comm

theorem ascending_touch (member now : Nat) {members : List (Nat × Nat)} (h : Ascending members) :
    Ascending (touch member now members) := by
  induction members with
  | nil => exact List.pairwise_singleton _ _
  | cons first rest ih =>
    obtain ⟨m, t⟩ := first
    obtain ⟨hfirst, hrest⟩ := List.pairwise_cons.mp h
    unfold touch
    split
    · next hlt =>
      refine List.pairwise_cons.mpr ⟨fun entry hentry => ?_, h⟩
      rcases List.mem_cons.mp hentry with rfl | hentry
      · exact hlt
      · exact Nat.lt_trans hlt (hfirst entry hentry)
    · split
      · next heq =>
        subst heq
        exact List.pairwise_cons.mpr ⟨hfirst, hrest⟩
      · next hne =>
        refine List.pairwise_cons.mpr ⟨fun entry hentry => ?_, ih hrest⟩
        rcases mem_touch.mp (List.mem_map_of_mem (f := (·.1)) hentry) with heq | hold
        · rw [heq]
          show m < member
          omega
        · obtain ⟨old, hold, heq⟩ := List.mem_map.mp hold
          rw [← heq]
          exact hfirst old hold

/-- Refreshing a member does not change who is a member. -/
theorem map_touch_of_has {member now : Nat} {members : List (Nat × Nat)} (h : Ascending members)
    (hmember : member ∈ members.map (·.1)) :
    (touch member now members).map (·.1) = members.map (·.1) := by
  induction members with
  | nil => cases hmember
  | cons first rest ih =>
    obtain ⟨m, t⟩ := first
    obtain ⟨hfirst, hrest⟩ := List.pairwise_cons.mp h
    unfold touch
    rcases List.mem_cons.mp hmember with heq | hrest'
    · rw [if_neg (by exact heq ▸ Nat.lt_irrefl _), if_pos heq]
      simp [heq]
    · obtain ⟨old, hold, heq⟩ := List.mem_map.mp hrest'
      have hlt : m < member := heq ▸ hfirst old hold
      rw [if_neg (by omega), if_neg (by omega), List.map_cons, List.map_cons, ih hrest hrest']

theorem has_iff (g : Group) (member : Nat) :
    g.has member = true ↔ member ∈ g.members.map (·.1) := by
  simp [has, List.any_eq_true, List.mem_map]

variable {g : Group}

theorem pairwise_membership (h : Ascending g.members) :
    g.membership.members.Pairwise (· < ·) := List.pairwise_map.mpr h

theorem later_join (g : Group) (now member : Nat) :
    g.membership.Later (g.join now member).membership := .inr (Nat.lt_succ_self _)

/-- A heartbeat that removes nobody and adds nobody tells the same membership. -/
theorem later_heartbeat (h : Ascending g.members) (now member timeout : Nat) :
    g.membership.Later (g.heartbeat now member timeout).membership := by
  unfold heartbeat
  dsimp only
  split
  · exact .inr (Nat.lt_succ_self _)
  · next hunchanged =>
    simp only [Bool.or_eq_true, decide_eq_true_eq, Bool.not_eq_true', not_or, Nat.not_lt,
      Bool.not_eq_false] at hunchanged
    have hstay : g.survivors now member timeout = g.members :=
      List.filter_sublist.eq_of_length_le hunchanged.1
    left
    rw [hstay]
    unfold membership
    dsimp only
    rw [map_touch_of_has h ((has_iff g member).mp hunchanged.2)]

theorem ascending_heartbeat (h : Ascending g.members) (now member timeout : Nat) :
    Ascending (g.heartbeat now member timeout).members :=
  ascending_touch member now (List.Pairwise.filter _ h)

theorem mem_heartbeat {now member timeout id : Nat}
    (hid : id ∈ (g.heartbeat now member timeout).membership.members) :
    id = member ∨ id ∈ g.membership.members := by
  rcases mem_touch.mp hid with heq | hold
  · exact .inl heq
  · obtain ⟨entry, hentry, heq⟩ := List.mem_map.mp hold
    exact .inr (List.mem_map.mpr ⟨entry, (List.mem_filter.mp hentry).1, heq⟩)

theorem later_leave (g : Group) (member : Nat) :
    g.membership.Later (g.leave member).membership := by
  unfold leave
  split
  · exact .inr (Nat.lt_succ_self _)
  · exact .refl _

theorem ascending_leave (h : Ascending g.members) (member : Nat) :
    Ascending (g.leave member).members := by
  unfold leave
  split
  · exact List.Pairwise.filter _ h
  · exact h

theorem mem_leave {member id : Nat} (hid : id ∈ (g.leave member).membership.members) :
    id ≠ member ∧ id ∈ g.membership.members := by
  unfold leave at hid
  split at hid
  · obtain ⟨entry, hentry, heq⟩ := List.mem_map.mp hid
    obtain ⟨hmem, hne⟩ := List.mem_filter.mp hentry
    rw [← heq]
    exact ⟨by simpa using hne, List.mem_map_of_mem hmem⟩
  · next hhas =>
    refine ⟨fun heq => hhas ?_, hid⟩
    rw [has_iff, ← heq]
    exact hid

/-! ### Who is a member, and since when -/

variable {member now timeout id seen : Nat}

/-- Of the others a touch changes nothing. -/
theorem mem_touch_iff {members : List (Nat × Nat)} (h : Ascending members) :
    (id, seen) ∈ touch member now members ↔
      id = member ∧ seen = now ∨ id ≠ member ∧ (id, seen) ∈ members := by
  induction members with
  | nil => simp [touch]
  | cons first rest ih =>
    obtain ⟨m, t⟩ := first
    obtain ⟨hfirst, hrest⟩ := List.pairwise_cons.mp h
    have hlater : (id, seen) ∈ rest → m < id := fun hmem => hfirst (id, seen) hmem
    unfold touch
    split
    · next hlt =>
      have hall : (id, seen) ∈ (m, t) :: rest → id ≠ member := by
        intro hmem
        rcases List.mem_cons.mp hmem with heq | hmem
        · have hid := congrArg Prod.fst heq
          dsimp only at hid
          omega
        · have := hlater hmem
          omega
      rw [List.mem_cons, Prod.mk.injEq]
      exact or_congr Iff.rfl ⟨fun hmem => ⟨hall hmem, hmem⟩, And.right⟩
    · split
      · next heq =>
        subst heq
        rw [List.mem_cons, Prod.mk.injEq, List.mem_cons, Prod.mk.injEq]
        refine or_congr Iff.rfl ⟨fun hmem => ⟨?_, .inr hmem⟩, ?_⟩
        · have := hlater hmem
          omega
        · rintro ⟨hne, ⟨rfl, -⟩ | hmem⟩
          · exact absurd rfl hne
          · exact hmem
      · next hge hne =>
        rw [List.mem_cons, ih hrest, List.mem_cons, Prod.mk.injEq]
        constructor
        · rintro (⟨rfl, rfl⟩ | hself | ⟨hother, hmem⟩)
          · exact .inr ⟨fun heq => hne heq.symm, .inl ⟨rfl, rfl⟩⟩
          · exact .inl hself
          · exact .inr ⟨hother, .inr hmem⟩
        · rintro (hself | ⟨hother, hfirst' | hmem⟩)
          · exact .inr (.inl hself)
          · exact .inl hfirst'
          · exact .inr (.inr ⟨hother, hmem⟩)

theorem mem_join (h : Ascending g.members) :
    (id, seen) ∈ (g.join now member).members ↔
      id = member ∧ seen = now ∨ id ≠ member ∧ (id, seen) ∈ g.members :=
  mem_touch_iff h

/-- Behind a heartbeat there are the one who sent it and the others who are not late. -/
theorem mem_members_heartbeat (h : Ascending g.members) :
    (id, seen) ∈ (g.heartbeat now member timeout).members ↔
      id = member ∧ seen = now ∨
        id ≠ member ∧ (id, seen) ∈ g.members ∧ now - seen ≤ timeout := by
  have hstay : Ascending (g.survivors now member timeout) := List.Pairwise.filter _ h
  show (id, seen) ∈ touch member now (g.survivors now member timeout) ↔ _
  rw [mem_touch_iff hstay, survivors, List.mem_filter]
  refine or_congr Iff.rfl (and_congr_right fun hne => and_congr_right fun _ => ?_)
  simp [hne]

theorem has_eq_false_iff (g : Group) (member : Nat) :
    g.has member = false ↔ ∀ seen, (member, seen) ∉ g.members := by
  rw [← Bool.not_eq_true, has_iff, List.mem_map]
  constructor
  · exact fun h seen hmem => h ⟨_, hmem, rfl⟩
  · rintro h ⟨⟨id, seen⟩, hmem, rfl⟩
    exact h seen hmem

theorem mem_members_leave :
    (id, seen) ∈ (g.leave member).members ↔ id ≠ member ∧ (id, seen) ∈ g.members := by
  unfold leave
  split
  · rw [List.mem_filter, and_comm]
    simp
  · next hhas =>
    refine ⟨fun hmem => ⟨?_, hmem⟩, And.right⟩
    rintro rfl
    exact hhas ((has_iff g id).mpr (List.mem_map.mpr ⟨_, hmem, rfl⟩))

theorem leave_of_not_mem (h : ∀ t, (member, t) ∉ g.members) : g.leave member = g := by
  unfold leave
  rw [if_neg]
  rw [(has_eq_false_iff g member).mpr h]
  exact Bool.false_ne_true

end Group

namespace MemoryLog

variable {s : MemoryLog}

theorem group_setGroup (s : MemoryLog) (group topic : String) (g : Group) (group' topic' : String) :
    (s.setGroup group topic g).group group' topic' =
      if group' = group ∧ topic' = topic then g else s.group group' topic' := by
  show (List.lookup _ (Keyed.put _ _ s.groups)).getD {} = _
  rw [lookup_put_of_lawful]
  simp only [Prod.mk.injEq]
  split <;> rfl

/-- Every group has its members in ascending order. -/
def Orderly (s : MemoryLog) : Prop :=
  ∀ group topic, Group.Ascending (s.group group topic).members

theorem orderly_empty : empty.Orderly := fun _ _ => List.Pairwise.nil

theorem Orderly.setGroup (h : s.Orderly) {g : Group} (hg : Group.Ascending g.members)
    (group topic : String) : (s.setGroup group topic g).Orderly := by
  intro group' topic'
  rw [group_setGroup]
  split
  · exact hg
  · exact h group' topic'

/-- What a call does to the groups: it replaces one that it concerns, or nothing. -/
theorem group_on (h : s.Orderly) (call : StoreCall) :
    (∀ group topic, (call.on s).group group topic = s.group group topic) ∨
      ∃ group topic g, call.Concerns group topic ∧ Group.Ascending g.members ∧
        (s.group group topic).membership.Later g.membership ∧
        ∀ group' topic', (call.on s).group group' topic' =
          if group' = group ∧ topic' = topic then g else s.group group' topic' := by
  cases call with
  | join now group topic =>
    exact .inr ⟨group, topic, _, ⟨rfl, rfl⟩, Group.ascending_touch _ _ (h group topic),
      Group.later_join _ _ _, group_setGroup _ group topic _⟩
  | heartbeat now group topic member timeout =>
    exact .inr ⟨group, topic, _, ⟨rfl, rfl⟩, Group.ascending_heartbeat (h group topic) _ _ _,
      Group.later_heartbeat (h group topic) _ _ _, group_setGroup _ group topic _⟩
  | leave group topic member =>
    cases hg : s.groups.lookup (group, topic) with
    | none =>
      refine .inl fun group' topic' => ?_
      simp only [StoreCall.on, LogStore.leave, StoreM.on_update, hg]
    | some g =>
      have hgroup : s.group group topic = g := by simp [MemoryLog.group, hg]
      refine .inr ⟨group, topic, g.leave member, ⟨rfl, rfl⟩, ?_, ?_, fun group' topic' => ?_⟩
      · exact Group.ascending_leave (hgroup ▸ h group topic) member
      · rw [hgroup]
        exact Group.later_leave g member
      · simp only [StoreCall.on, LogStore.leave, StoreM.on_update, hg]
        exact group_setGroup s group topic _ group' topic'
  | createTopic topic n =>
    refine .inl fun group' topic' => ?_
    simp only [StoreCall.on, LogStore.createTopic, StoreM.on_update]
    split <;> rfl
  | append topic p key value =>
    refine .inl fun group' topic' => ?_
    show MemoryLog.group (s.append topic p key value).2 _ _ = _
    unfold MemoryLog.append
    split <;> rfl
  | _ => exact .inl fun _ _ => rfl

/-- The group behind a leave. -/
theorem group_leave (m : MemoryLog) (group topic : String) (member : Nat) (group' topic' : String) :
    ((StoreCall.leave group topic member).on m).group group' topic' =
      if group' = group ∧ topic' = topic then (m.group group topic).leave member
      else m.group group' topic' := by
  simp only [StoreCall.on, LogStore.leave, StoreM.on_update]
  cases hg : m.groups.lookup (group, topic) with
  | none =>
    have hgroup : m.group group topic = {} := by rw [MemoryLog.group, hg, Option.getD_none]
    dsimp only
    rw [hgroup, Group.leave_of_not_mem (fun _ => List.not_mem_nil)]
    split
    · next heq => rw [heq.1, heq.2, hgroup]
    · rfl
  | some g =>
    have hgroup : m.group group topic = g := by rw [MemoryLog.group, hg, Option.getD_some]
    rw [hgroup]
    exact group_setGroup m group topic _ group' topic'

instance : GroupStore MemoryLog where
  roster s group topic := (s.group group topic).membership
  Orderly := Orderly
  Valid _ := True
  sound_of_orderly _ _ := trivial
  ascending_roster s h group topic := Group.pairwise_membership (h group topic)
  orderly_on call s h _ := by
    rcases group_on h call with hsame | ⟨group, topic, g, -, hg, -, hafter⟩
    · exact fun group topic => hsame group topic ▸ h group topic
    · intro group' topic'
      rw [hafter]
      split
      · exact hg
      · exact h group' topic'
  roster_on call s h _ group topic := by
    rcases group_on h call with hsame | ⟨group', topic', g, hconcerns, -, hlater, hafter⟩
    · rw [hsame]
      exact ⟨.refl _, fun _ => rfl⟩
    · rw [hafter]
      split
      · next heq =>
        obtain ⟨rfl, rfl⟩ := heq
        exact ⟨hlater, fun hnot => absurd hconcerns hnot⟩
      · exact ⟨.refl _, fun _ => rfl⟩
  join_valid now group topic s _ := by
    refine ⟨fun _ _ => trivial, fun id hid => ?_⟩
    have hgroup : ((s.join now group topic).2.group group topic) =
        (s.group group topic).join now (s.lastMember + 1) := by
      refine (group_setGroup _ group topic _ group topic).trans ?_
      rw [if_pos ⟨rfl, rfl⟩]
      rfl
    have hid' : id ∈ ((s.join now group topic).2.group group topic).membership.members := hid
    rw [hgroup] at hid'
    rcases Group.mem_touch.mp hid' with heq | hold
    · exact .inr (congrArg Except.ok heq.symm)
    · exact .inl hold
  heartbeat_tells now group topic member timeout s _ _ := by
    have hgroup := group_setGroup s group topic
      ((s.group group topic).heartbeat now member timeout) group topic
    rw [if_pos ⟨rfl, rfl⟩] at hgroup
    constructor
    · intro m hm
      obtain rfl := Except.ok.inj hm
      have hroster : ((s.group group topic).heartbeat now member timeout).membership =
          ((s.setGroup group topic ((s.group group topic).heartbeat now member timeout)).group
            group topic).membership := by rw [hgroup]
      exact ⟨congrArg _ hroster, fun _ => congrArg _ hroster⟩
    · intro id hid
      have hid' : id ∈ ((s.setGroup group topic ((s.group group topic).heartbeat now member
          timeout)).group group topic).membership.members := hid
      rw [hgroup] at hid'
      exact Group.mem_heartbeat hid'
  leave_members group topic member s _ _ := by
    rw [ensures_on]
    intro id hid
    have hafter : ((StoreM.on (LogStore.leave group topic member) s).2.group group topic) =
        (s.group group topic).leave member := by
      simp only [LogStore.leave, StoreM.on_update]
      cases hg : s.groups.lookup (group, topic) with
      | none => simp [MemoryLog.group, hg, Group.leave, Group.has]
      | some g =>
        simp only [group_setGroup]
        simp [MemoryLog.group, hg]
    have hid' : id ∈ ((StoreM.on (LogStore.leave group topic member) s).2.group group
        topic).membership.members := hid
    rw [hafter] at hid'
    exact Group.mem_leave hid'

end MemoryLog

end WorkQueue
