import Mathlib.Data.List.Sort
import WorkQueue.Proofs.Store.Dependable

/-!
# Two stores with the same groups

In memory a group is a list of members in ascending order with the times of their last heartbeats; in
tables all members are rows of one table, in the order they came. While both keep the same members
with the same times, a call by a member whose number was given out for its group does the same to
both, and tells the same.

## Main definitions

* `SameGroups`: the two stores keep the same generations, members and times
* `Listed`: every member is one whose number was given out for its group

## Main statements

* `SameGroups.join`, `SameGroups.heartbeat`, `SameGroups.leave`: they stay the same
* `SameGroups.membership_eq`: what is told of a group
-/

namespace WorkQueue

/-! ## Members in memory -/

namespace Group

variable {g : Group} {member now timeout id seen : Nat}

/-- Does a heartbeat change who is a member? Somebody else is late, or the one who sent it was none. -/
def Changes (g : Group) (now member timeout : Nat) : Prop :=
  (∃ id seen, id ≠ member ∧ (id, seen) ∈ g.members ∧ timeout < now - seen) ∨
    ∀ seen, (member, seen) ∉ g.members

theorem changes_iff : (g.survivors now member timeout).length < g.members.length ∨
    g.has member = false ↔ g.Changes now member timeout := by
  unfold Changes survivors
  rw [List.length_filter_lt_length_iff_exists, has_eq_false_iff]
  refine or_congr ⟨?_, ?_⟩ Iff.rfl
  · rintro ⟨⟨id, seen⟩, hmem, hlate⟩
    simp only [Bool.or_eq_true, beq_iff_eq, decide_eq_true_eq, not_or] at hlate
    exact ⟨id, seen, hlate.1, hmem, Nat.lt_of_not_le hlate.2⟩
  · rintro ⟨id, seen, hne, hmem, hlate⟩
    refine ⟨(id, seen), hmem, ?_⟩
    simp only [Bool.or_eq_true, beq_iff_eq, decide_eq_true_eq, not_or]
    exact ⟨hne, Nat.not_le.mpr hlate⟩

theorem generation_heartbeat (h : g.Changes now member timeout) :
    (g.heartbeat now member timeout).generation = g.generation + 1 := by
  refine if_pos ?_
  simpa using changes_iff.mpr h

theorem generation_heartbeat_of_not (h : ¬ g.Changes now member timeout) :
    (g.heartbeat now member timeout).generation = g.generation := by
  refine if_neg ?_
  simpa using mt changes_iff.mp h

theorem generation_leave {t : Nat} (h : (member, t) ∈ g.members) :
    (g.leave member).generation = g.generation + 1 := by
  unfold leave
  rw [if_pos ((has_iff g member).mpr (List.mem_map.mpr ⟨_, h, rfl⟩))]

end Group

/-! ## Members in tables -/

namespace TableLog

variable {s : TableLog} {group topic : String} {now : Nat}

/-- The generation of a group as it is kept. -/
def generation (s : TableLog) (group topic : String) : Int :=
  (s.generations.lookup (group, topic)).getD 0

theorem generation_bump (s : TableLog) (group topic group' topic' : String) :
    (s.bump group topic).generation group' topic' =
      if group' = group ∧ topic' = topic then s.generation group topic + 1
      else s.generation group' topic' := by
  unfold generation bump
  rw [lookup_put_of_lawful]
  simp only [Prod.mk.injEq]
  split <;> rfl

/-- Topics, records and positions stay as they are. -/
structure LogsKept (s s' : TableLog) : Prop where
  topics_eq : s'.topics = s.topics
  records_eq : s'.records = s.records
  positions_eq : s'.positions = s.positions

theorem logsKept_join (s : TableLog) (now : Nat) (group topic : String) :
    s.LogsKept (s.join now group topic).2 := by
  unfold join insertMember
  dsimp only
  split
  · exact ⟨rfl, rfl, rfl⟩
  · split
    · exact ⟨rfl, rfl, rfl⟩
    · next s' hs' =>
      split at hs'
      · cases hs'
      · obtain rfl := Except.ok.inj hs'
        exact ⟨rfl, rfl, rfl⟩

theorem logsKept_leave (s : TableLog) (group topic : String) (member : Nat) :
    s.LogsKept (s.leave group topic member) := by
  unfold leave
  dsimp only
  split
  · exact ⟨rfl, rfl, rfl⟩
  · exact ⟨rfl, rfl, rfl⟩

/-- The row of a member seen at a time. -/
theorem eq_row_iff {r : MemberRow} {id seen : Int} : r = ⟨id, group, topic, seen⟩ ↔
    inGroup group topic r = true ∧ r.id = id ∧ r.lastSeen = seen := by
  rw [inGroup_iff]
  constructor
  · rintro rfl
    exact ⟨⟨rfl, rfl⟩, rfl, rfl⟩
  · rintro ⟨⟨rfl, rfl⟩, rfl, rfl⟩
    rfl

/-- A refresh by the one who has the number leaves the others' rows as they are. -/
theorem refresh_rows (now : Nat) {id : Int} (hid : id ≤ s.lastMember)
    (hown : ∀ r ∈ s.members, r.id = id → inGroup group topic r = true) :
    ∃ rejoined members, s.refresh now group topic id = .ok (rejoined, { s with members }) ∧
      (rejoined = true ↔ ∀ r ∈ s.members, r.id ≠ id) ∧
      ∀ r, r ∈ members ↔ r = ⟨id, group, topic, now⟩ ∨ r.id ≠ id ∧ r ∈ s.members := by
  by_cases hthere : ∃ old ∈ s.members, old.id = id
  · obtain ⟨old, hold, rfl⟩ := hthere
    have hin := hown old hold rfl
    refine ⟨false, _, refresh_eq (mem_idsOf.mpr ⟨old, hold, hin, rfl⟩), ?_, fun r => ?_⟩
    · simp only [Bool.false_eq_true, false_iff, not_forall]
      exact ⟨old, hold, not_not.mpr rfl⟩
    have hself : ∀ r ∈ s.members, r.id = old.id →
        refreshed now group topic old.id r = ⟨old.id, group, topic, now⟩ := by
      intro r hr heq
      obtain ⟨hgroup, htopic⟩ := inGroup_iff.mp (hown r hr heq)
      unfold refreshed
      rw [if_pos (by simp [heq, hown r hr heq]), heq, hgroup, htopic]
    have hother : ∀ r, r.id ≠ old.id → refreshed now group topic old.id r = r := by
      intro r hne
      unfold refreshed
      rw [if_neg (by simp [hne])]
    rw [List.mem_map]
    constructor
    · rintro ⟨r', hr', rfl⟩
      by_cases heq : r'.id = old.id
      · exact .inl (hself r' hr' heq)
      · rw [hother r' heq]
        exact .inr ⟨heq, hr'⟩
    · rintro (rfl | ⟨hne, hr⟩)
      · exact ⟨old, hold, hself old hold rfl⟩
      · exact ⟨r, hr, hother r hne⟩
  · have hnone : ∀ r ∈ s.members, r.id ≠ id := fun r hr heq => hthere ⟨r, hr, heq⟩
    have hmember : ¬ (s.members.any fun r => r.id == id && inGroup group topic r) = true := by
      rw [List.any_eq_true]
      rintro ⟨r, hr, heq⟩
      exact hnone r hr (by simpa using (Bool.and_eq_true_iff.mp heq).1)
    have hfree : ¬ (s.members.any (·.id == id)) = true := by
      rw [List.any_eq_true]
      rintro ⟨r, hr, heq⟩
      exact hnone r hr (by simpa using heq)
    refine ⟨true, s.members ++ [⟨id, group, topic, now⟩], ?_, iff_of_true rfl hnone, fun r => ?_⟩
    · unfold refresh insertMember
      rw [if_neg hmember, if_neg hfree]
      show Except.ok (true, ({ s with
        members := s.members ++ [⟨id, group, topic, now⟩], lastMember := max s.lastMember id } :
          TableLog)) = _
      rw [Int.max_eq_left hid]
    · rw [List.mem_append, List.mem_singleton, or_comm]
      exact or_congr Iff.rfl ⟨fun hr => ⟨hnone r hr, hr⟩, And.right⟩

/-- Does a heartbeat change who is a member? -/
def Changes (s : TableLog) (now : Nat) (group topic : String) (member timeout : Nat) : Prop :=
  (∃ r ∈ s.members, r.id ≠ member ∧ inGroup group topic r = true ∧
      r.lastSeen < (now : Int) - timeout) ∨
    ∀ r ∈ s.members, r.id ≠ member

/-- What a heartbeat makes of the tables. -/
structure Beaten (s : TableLog) (now : Nat) (group topic : String) (member timeout : Nat)
    (after : TableLog) : Prop where
  row_iff (r : MemberRow) : r ∈ after.members ↔ r = ⟨member, group, topic, now⟩ ∨
    r.id ≠ member ∧ r ∈ s.members ∧
      ¬ (inGroup group topic r = true ∧ r.lastSeen < (now : Int) - timeout)
  /-- The generation grows if the members change. -/
  bumped (h : s.Changes now group topic member timeout) (group' topic' : String) :
    after.generation group' topic' = (s.bump group topic).generation group' topic'
  kept (h : ¬ s.Changes now group topic member timeout) (group' topic' : String) :
    after.generation group' topic' = s.generation group' topic'
  lastMember_eq : after.lastMember = s.lastMember
  logs : s.LogsKept after

/-- A heartbeat of a member whose number is its own succeeds. -/
theorem beaten_heartbeat {now member timeout : Nat} (hid : (member : Int) ≤ s.lastMember)
    (hword : (member : Int) ≤ maxSigned64) (hnow : (now : Int) ≤ maxSigned64)
    (htimeout : (timeout : Int) ≤ maxSigned64)
    (hown : ∀ r ∈ s.members, r.id = member → inGroup group topic r = true) :
    ∃ after, s.heartbeat now group topic member timeout =
        (.ok (after.membership group topic), after) ∧
      s.Beaten now group topic member timeout after := by
  obtain ⟨rejoined, fresh, hfresh, hrejoined, hrows⟩ := refresh_rows now hid hown
  have hexpired : (fresh.any (stale group topic ((now : Int) - timeout))) = true ↔
      ∃ r ∈ s.members, r.id ≠ member ∧ inGroup group topic r = true ∧
        r.lastSeen < (now : Int) - timeout := by
    rw [List.any_eq_true]
    constructor
    · rintro ⟨r, hr, hlate⟩
      obtain ⟨hin, hseen⟩ := stale_iff.mp hlate
      rcases (hrows r).mp hr with rfl | ⟨hne, hr⟩
      · -- who has just been seen is not late
        dsimp only at hseen
        omega
      · exact ⟨r, hr, hne, hin, hseen⟩
    · rintro ⟨r, hr, hne, hin, hseen⟩
      exact ⟨r, (hrows r).mpr (.inr ⟨hne, hr⟩), stale_iff.mpr ⟨hin, hseen⟩⟩
  have hchanges : (rejoined || fresh.any (stale group topic ((now : Int) - timeout))) = true ↔
      s.Changes now group topic member timeout := by
    rw [Bool.or_eq_true, hrejoined, hexpired]
    exact or_comm
  have hleft : ∀ r, r ∈ fresh.filter (fun r => !stale group topic ((now : Int) - timeout) r) ↔
      r = ⟨member, group, topic, now⟩ ∨ r.id ≠ member ∧ r ∈ s.members ∧
        ¬ (inGroup group topic r = true ∧ r.lastSeen < (now : Int) - timeout) := by
    intro r
    rw [List.mem_filter, Bool.not_eq_true', ← Bool.not_eq_true, stale_iff, hrows]
    constructor
    · rintro ⟨rfl | ⟨hne, hr⟩, hstays⟩
      · exact .inl rfl
      · exact .inr ⟨hne, hr, hstays⟩
    · rintro (rfl | ⟨hne, hr, hstays⟩)
      · refine ⟨.inl rfl, fun hlate => ?_⟩
        have hseen := hlate.2
        dsimp only at hseen
        omega
      · exact ⟨.inr ⟨hne, hr⟩, hstays⟩
  have hbeat : s.heartbeat now group topic member timeout =
      let kept : TableLog := { s with
        members := fresh.filter fun r => !stale group topic ((now : Int) - timeout) r }
      let after := if rejoined || fresh.any (stale group topic ((now : Int) - timeout)) then
        kept.bump group topic else kept
      (.ok (after.membership group topic), after) := by
    unfold heartbeat
    rw [toWord_natCast hword, hfresh]
    dsimp only
    rw [cutoff_eq hnow htimeout]
    rfl
  refine ⟨_, hbeat, ?_⟩
  by_cases hgrows : s.Changes now group topic member timeout
  · rw [if_pos (hchanges.mpr hgrows)]
    exact ⟨hleft, fun _ _ _ => rfl, fun hnot => absurd hgrows hnot, rfl, ⟨rfl, rfl, rfl⟩⟩
  · rw [if_neg (mt hchanges.mp hgrows)]
    exact ⟨hleft, fun h => absurd h hgrows, fun _ _ _ => rfl, rfl, ⟨rfl, rfl, rfl⟩⟩

end TableLog

/-! ## The same groups -/

/-- Is a row that of a member? -/
def Group.Lists (g : Group) (r : MemberRow) : Prop :=
  ∃ id seen : Nat, r.id = id ∧ r.lastSeen = seen ∧ (id, seen) ∈ g.members

/-- The two stores keep the same generations, members and times. -/
structure SameGroups (m : MemoryLog) (t : TableLog) : Prop where
  generation_eq (group topic : String) :
    t.generation group topic = (m.group group topic).generation
  row_iff (r : MemberRow) : r ∈ t.members ↔ (m.group r.group r.topic).Lists r
  lastMember_eq : t.lastMember = m.lastMember

/-- Every member has a number that was given out for its group, and for no other group. -/
structure Listed (given : Nat → String → String → Prop) (m : MemoryLog) : Prop where
  given_of_mem {id seen : Nat} {group topic : String} :
    (id, seen) ∈ (m.group group topic).members → given id group topic
  given_le {id : Nat} {group topic : String} : given id group topic → id ≤ m.lastMember
  given_inj {id : Nat} {group topic group' topic' : String} :
    given id group topic → given id group' topic' → group' = group ∧ topic' = topic

namespace Listed

variable {given : Nat → String → String → Prop} {m m' : MemoryLog} {group topic : String}

theorem empty : Listed (fun _ _ _ => False) .empty := ⟨nofun, nofun, nofun⟩

/-- Other parts of the store do not matter. -/
theorem congr (h : Listed given m) (hgroups : ∀ group topic, m'.group group topic = m.group group topic)
    (hlast : m'.lastMember = m.lastMember) : Listed given m' where
  given_of_mem hmem := h.given_of_mem (hgroups _ _ ▸ hmem)
  given_le hgiven := hlast ▸ h.given_le hgiven
  given_inj := h.given_inj

/-- A group may change as long as its members' numbers were given out for it. -/
theorem replace (h : Listed given m) {g : Group}
    (hgroup : ∀ group' topic', m'.group group' topic' =
      if group' = group ∧ topic' = topic then g else m.group group' topic')
    (hlast : m'.lastMember = m.lastMember)
    (hg : ∀ id seen, (id, seen) ∈ g.members → given id group topic) : Listed given m' where
  given_of_mem := by
    intro id seen group' topic' hmem
    rw [hgroup] at hmem
    split at hmem
    · next heq =>
      obtain ⟨rfl, rfl⟩ := heq
      exact hg id seen hmem
    · exact h.given_of_mem hmem
  given_le hgiven := hlast ▸ h.given_le hgiven
  given_inj := h.given_inj

/-- Whoever joins is given the next number. -/
theorem join (h : Listed given m) (now : Nat) (group topic : String) :
    Listed (fun id g t => given id g t ∨ id = m.lastMember + 1 ∧ g = group ∧ t = topic)
      (m.join now group topic).2 where
  given_of_mem := by
    intro id seen group' topic' hmem
    unfold MemoryLog.join at hmem
    rw [MemoryLog.group_setGroup] at hmem
    split at hmem
    · next heq =>
      rcases Group.mem_touch.mp (List.mem_map_of_mem (f := (·.1)) hmem) with hnew | hold
      · exact .inr ⟨hnew, heq⟩
      · obtain ⟨rfl, rfl⟩ := heq
        obtain ⟨⟨_, seen'⟩, hmem', rfl⟩ := List.mem_map.mp hold
        exact .inl (h.given_of_mem hmem')
    · exact .inl (h.given_of_mem hmem)
  given_le := by
    intro id group' topic' hgiven
    show id ≤ m.lastMember + 1
    rcases hgiven with hgiven | ⟨rfl, -⟩
    · exact Nat.le_succ_of_le (h.given_le hgiven)
    · exact Nat.le_refl _
  given_inj := by
    -- a new number is above those given out before
    rintro id group₁ topic₁ group₂ topic₂ (h₁ | ⟨hid, rfl, rfl⟩) (h₂ | ⟨hid', rfl, rfl⟩)
    · exact h.given_inj h₁ h₂
    · exact absurd (h.given_le h₁) (by omega)
    · exact absurd (h.given_le h₂) (by omega)
    · exact ⟨rfl, rfl⟩

end Listed

namespace SameGroups

variable {given : Nat → String → String → Prop} {m m' : MemoryLog} {t t' : TableLog}
  {group topic : String}

theorem empty : SameGroups .empty .empty where
  generation_eq _ _ := rfl
  row_iff _ := ⟨nofun, fun ⟨_, _, _, _, hmem⟩ => nomatch hmem⟩
  lastMember_eq := rfl

/-- Other parts of the stores do not matter. -/
theorem congr (h : SameGroups m t)
    (hgroups : ∀ group topic, m'.group group topic = m.group group topic)
    (hlast : m'.lastMember = m.lastMember) (hgenerations : t'.generations = t.generations)
    (hmembers : t'.members = t.members) (hlast' : t'.lastMember = t.lastMember) :
    SameGroups m' t' where
  generation_eq group topic := by
    rw [hgroups, ← h.generation_eq, TableLog.generation, TableLog.generation, hgenerations]
  row_iff r := by rw [hmembers, hgroups, h.row_iff]
  lastMember_eq := by rw [hlast, hlast', h.lastMember_eq]

/-- One group changes in both. -/
theorem replace (h : SameGroups m t) {g : Group}
    (hgroup : ∀ group' topic', m'.group group' topic' =
      if group' = group ∧ topic' = topic then g else m.group group' topic')
    (hgeneration : ∀ group' topic', t'.generation group' topic' =
      if group' = group ∧ topic' = topic then (g.generation : Int) else t.generation group' topic')
    (hin : ∀ r, TableLog.inGroup group topic r = true → (r ∈ t'.members ↔ g.Lists r))
    (hout : ∀ r, ¬ TableLog.inGroup group topic r = true → (r ∈ t'.members ↔ r ∈ t.members))
    (hlast : t'.lastMember = m'.lastMember) : SameGroups m' t' where
  generation_eq group' topic' := by
    rw [hgroup, hgeneration]
    split
    · rfl
    · exact h.generation_eq group' topic'
  row_iff r := by
    rw [hgroup]
    split
    · next heq => exact hin r (TableLog.inGroup_iff.mpr heq)
    · next hne =>
      rw [hout r (mt TableLog.inGroup_iff.mp hne)]
      exact h.row_iff r
  lastMember_eq := hlast

/-- In a group the rows are those of its members. -/
theorem mem_iff (h : SameGroups m t) {r : MemberRow} (hr : TableLog.inGroup group topic r = true) :
    r ∈ t.members ↔ (m.group group topic).Lists r := by
  obtain ⟨rfl, rfl⟩ := TableLog.inGroup_iff.mp hr
  exact h.row_iff r

/-- A row has a number that was given out for its group. -/
theorem given_of_row (h : SameGroups m t) (hl : Listed given m) {r : MemberRow}
    (hr : r ∈ t.members) : ∃ id : Nat, r.id = id ∧ given id r.group r.topic := by
  obtain ⟨id, seen, hid, -, hmem⟩ := (h.row_iff r).mp hr
  exact ⟨id, hid, hl.given_of_mem hmem⟩

/-- The row of a member is in its group. -/
theorem inGroup_of_given (h : SameGroups m t) (hl : Listed given m) {member : Nat}
    (hmember : given member group topic) {r : MemberRow} (hr : r ∈ t.members)
    (hid : r.id = member) : TableLog.inGroup group topic r = true := by
  obtain ⟨id, hid', hgiven⟩ := h.given_of_row hl hr
  obtain rfl : member = id := Int.ofNat.inj (hid.symm.trans hid')
  exact TableLog.inGroup_iff.mpr (hl.given_inj hmember hgiven)

/-- A number is somebody's row just as it is somebody in the group. -/
theorem no_row_iff (h : SameGroups m t) (hl : Listed given m) {member : Nat}
    (hmember : given member group topic) :
    (∀ r ∈ t.members, r.id ≠ member) ↔
      ∀ seen, (member, seen) ∉ (m.group group topic).members := by
  constructor
  · intro hnone seen hmem
    exact hnone ⟨member, group, topic, seen⟩ ((h.row_iff _).mpr ⟨member, seen, rfl, rfl, hmem⟩) rfl
  · intro hnone r hr hid
    obtain ⟨id, seen, hid', -, hmem⟩ :=
      (h.mem_iff (h.inGroup_of_given hl hmember hr hid)).mp hr
    obtain rfl : member = id := Int.ofNat.inj (hid.symm.trans hid')
    exact hnone seen hmem

/-! ### Joining -/

/-- Whoever joins is told the same number. -/
theorem join (h : SameGroups m t) (hm : m.Orderly) (hl : Listed given m) (now : Nat)
    (hfits : (m.lastMember : Int) + 1 ≤ maxSigned64) (group topic : String) :
    (t.join now group topic).1 = .ok (m.join now group topic).1 ∧
      SameGroups (m.join now group topic).2 (t.join now group topic).2 := by
  have hfree : ¬ (t.members.any fun r => r.id == t.lastMember + 1) = true := by
    rw [List.any_eq_true]
    rintro ⟨r, hr, hid⟩
    obtain ⟨id, hid', hgiven⟩ := h.given_of_row hl hr
    have hle := hl.given_le hgiven
    have hlast := h.lastMember_eq
    have hid := beq_iff_eq.mp hid
    omega
  have hjoin : t.join now group topic = (.ok (ofWord (t.lastMember + 1)),
      ({ t with
        members := t.members ++ [⟨t.lastMember + 1, group, topic, now⟩]
        lastMember := max t.lastMember (t.lastMember + 1) } : TableLog).bump group topic) := by
    unfold TableLog.join TableLog.insertMember
    dsimp only
    rw [if_neg (by rw [h.lastMember_eq]; omega), if_neg hfree]
  rw [hjoin, h.lastMember_eq]
  have hword : ofWord ((m.lastMember : Int) + 1) = m.lastMember + 1 := TableLog.ofWord_natCast hfits
  refine ⟨congrArg Except.ok hword, ?_⟩
  refine h.replace (MemoryLog.group_setGroup _ group topic _) (fun group' topic' => ?_)
    (fun r hr => ?_) (fun r hr => ?_) ?_
  · rw [TableLog.generation_bump]
    split
    · exact congrArg (· + 1) (h.generation_eq group topic)
    · rfl
  · show r ∈ t.members ++ [⟨(m.lastMember : Int) + 1, group, topic, now⟩] ↔ _
    rw [List.mem_append, List.mem_singleton, h.mem_iff hr]
    constructor
    · rintro (⟨id, seen, hid, hseen, hmem⟩ | rfl)
      · have hle := hl.given_le (hl.given_of_mem hmem)
        exact ⟨id, seen, hid, hseen, (Group.mem_join (hm group topic)).mpr (.inr ⟨by omega, hmem⟩)⟩
      · exact ⟨m.lastMember + 1, now, rfl, rfl,
          (Group.mem_join (hm group topic)).mpr (.inl ⟨rfl, rfl⟩)⟩
    · rintro ⟨id, seen, hid, hseen, hmem⟩
      rcases (Group.mem_join (hm group topic)).mp hmem with ⟨rfl, rfl⟩ | ⟨-, hold⟩
      · exact .inr (TableLog.eq_row_iff.mpr ⟨hr, hid, hseen⟩)
      · exact .inl ⟨id, seen, hid, hseen, hold⟩
  · show r ∈ t.members ++ [⟨(m.lastMember : Int) + 1, group, topic, now⟩] ↔ _
    rw [List.mem_append, List.mem_singleton, or_iff_left]
    rintro rfl
    exact hr (TableLog.inGroup_iff.mpr ⟨rfl, rfl⟩)
  · show max (m.lastMember : Int) (m.lastMember + 1) = ((m.lastMember + 1 : Nat) : Int)
    omega

/-! ### Heartbeats -/

/-- A heartbeat changes who is a member in both or in neither. -/
theorem changes_iff (h : SameGroups m t) (hl : Listed given m) {now member timeout : Nat}
    (hmember : given member group topic) : t.Changes now group topic member timeout ↔
      (m.group group topic).Changes now member timeout := by
  refine or_congr ?_ (h.no_row_iff hl hmember)
  constructor
  · rintro ⟨r, hr, hne, hin, hlate⟩
    obtain ⟨id, seen, hid, hseen, hmem⟩ := (h.mem_iff hin).mp hr
    exact ⟨id, seen, by omega, hmem, by omega⟩
  · rintro ⟨id, seen, hne, hmem, hlate⟩
    refine ⟨⟨id, group, topic, seen⟩, (h.row_iff _).mpr ⟨id, seen, rfl, rfl, hmem⟩, ?_,
      TableLog.inGroup_iff.mpr ⟨rfl, rfl⟩, ?_⟩
    · exact fun heq => hne (Int.ofNat.inj heq)
    · dsimp only
      omega

/-- A heartbeat of a member whose number was given out for the group, in both. -/
theorem heartbeat (h : SameGroups m t) (hm : m.Orderly) (hl : Listed given m)
    {now member timeout : Nat} (hmember : given member group topic)
    (hword : (m.lastMember : Int) ≤ maxSigned64) (hnow : (now : Int) ≤ maxSigned64)
    (htimeout : (timeout : Int) ≤ maxSigned64) :
    ∃ after, t.heartbeat now group topic member timeout =
        (.ok (after.membership group topic), after) ∧ t.LogsKept after ∧
      SameGroups (m.setGroup group topic ((m.group group topic).heartbeat now member timeout))
        after := by
  have hle := hl.given_le hmember
  have hlast := h.lastMember_eq
  obtain ⟨after, hbeat, hbeaten⟩ :=
    t.beaten_heartbeat (by omega) (by omega) hnow htimeout
      fun r hr heq => h.inGroup_of_given hl hmember hr heq
  refine ⟨after, hbeat, hbeaten.logs, h.replace (MemoryLog.group_setGroup m group topic _)
    (fun group' topic' => ?_) (fun r hr => ?_) (fun r hr => ?_)
    (hbeaten.lastMember_eq.trans h.lastMember_eq)⟩
  · by_cases hchanges : t.Changes now group topic member timeout
    · rw [hbeaten.bumped hchanges, TableLog.generation_bump,
        Group.generation_heartbeat ((h.changes_iff hl hmember).mp hchanges), h.generation_eq group]
      rfl
    · rw [hbeaten.kept hchanges,
        Group.generation_heartbeat_of_not (mt (h.changes_iff hl hmember).mpr hchanges)]
      split
      · next heq => rw [heq.1, heq.2, h.generation_eq]
      · rfl
  · rw [hbeaten.row_iff, TableLog.eq_row_iff, h.mem_iff hr]
    constructor
    · rintro (⟨-, hid, hseen⟩ | ⟨hne, ⟨id, seen, hid, hseen, hmem⟩, hfresh⟩)
      · exact ⟨member, now, hid, hseen,
          (Group.mem_members_heartbeat (hm group topic)).mpr (.inl ⟨rfl, rfl⟩)⟩
      · have hintime : ¬ r.lastSeen < (now : Int) - timeout := fun hlate => hfresh ⟨hr, hlate⟩
        exact ⟨id, seen, hid, hseen, (Group.mem_members_heartbeat (hm group topic)).mpr
          (.inr ⟨by omega, hmem, by omega⟩)⟩
    · rintro ⟨id, seen, hid, hseen, hmem⟩
      rcases (Group.mem_members_heartbeat (hm group topic)).mp hmem with
        ⟨rfl, rfl⟩ | ⟨hne, hold, hfresh⟩
      · exact .inl ⟨hr, hid, hseen⟩
      · exact .inr ⟨by omega, ⟨id, seen, hid, hseen, hold⟩, fun hlate => by omega⟩
  · -- nobody of another group has the number
    rw [hbeaten.row_iff, TableLog.eq_row_iff]
    constructor
    · rintro (⟨hin, -⟩ | ⟨-, hold, -⟩)
      · exact absurd hin hr
      · exact hold
    · intro hold
      exact .inr ⟨fun heq => hr (h.inGroup_of_given hl hmember hold heq), hold,
        fun hlate => hr hlate.1⟩

/-! ### Leaving -/

/-- Whoever leaves is gone, in both. -/
theorem leave (h : SameGroups m t) (hl : Listed given m) {member : Nat}
    (hmember : given member group topic) (hword : (m.lastMember : Int) ≤ maxSigned64)
    (hgroup : ∀ group' topic', m'.group group' topic' =
      if group' = group ∧ topic' = topic then (m.group group topic).leave member
      else m.group group' topic')
    (hlast : m'.lastMember = m.lastMember) : SameGroups m' (t.leave group topic member) := by
  have hle := hl.given_le hmember
  have hgoes : ∀ r : MemberRow, (r.id == toWord member && TableLog.inGroup group topic r) = true ↔
      r.id = member ∧ TableLog.inGroup group topic r = true := by
    intro r
    rw [TableLog.toWord_natCast (by omega), Bool.and_eq_true, beq_iff_eq]
  unfold TableLog.leave
  dsimp only
  split
  case isTrue hany =>
    obtain ⟨r, hr, hleaves⟩ := List.any_eq_true.mp hany
    obtain ⟨hrid, hrin⟩ := (hgoes r).mp hleaves
    obtain ⟨id, seen, hid', -, hmem⟩ := (h.mem_iff hrin).mp hr
    obtain rfl : member = id := Int.ofNat.inj (hrid.symm.trans hid')
    refine h.replace hgroup (fun group' topic' => ?_) (fun r hr => ?_) (fun r hr => ?_) ?_
    · rw [TableLog.generation_bump, Group.generation_leave hmem]
      split
      · exact congrArg (· + 1) (h.generation_eq group topic)
      · rfl
    · show r ∈ t.members.filter _ ↔ _
      rw [List.mem_filter, Bool.not_eq_true', ← Bool.not_eq_true, hgoes, h.mem_iff hr]
      constructor
      · rintro ⟨⟨id, seen, hid, hseen, hmem⟩, hstays⟩
        exact ⟨id, seen, hid, hseen, Group.mem_members_leave.mpr
          ⟨fun heq => hstays ⟨heq ▸ hid, hr⟩, hmem⟩⟩
      · rintro ⟨id, seen, hid, hseen, hmem⟩
        obtain ⟨hne, hold⟩ := Group.mem_members_leave.mp hmem
        exact ⟨⟨id, seen, hid, hseen, hold⟩, fun hleaves => hne (by omega)⟩
    · show r ∈ t.members.filter _ ↔ _
      rw [List.mem_filter, Bool.not_eq_true', ← Bool.not_eq_true, hgoes]
      exact and_iff_left fun hleaves => hr hleaves.2
    · rw [hlast]
      exact h.lastMember_eq
  case isFalse hnone =>
    have hnobody : ∀ seen, (member, seen) ∉ (m.group group topic).members := by
      refine (h.no_row_iff hl hmember).mp fun r hr heq => hnone ?_
      exact List.any_eq_true.mpr ⟨r, hr, (hgoes r).mpr ⟨heq, h.inGroup_of_given hl hmember hr heq⟩⟩
    refine h.congr (fun group' topic' => ?_) hlast rfl rfl rfl
    rw [hgroup, Group.leave_of_not_mem hnobody]
    split
    · next heq => rw [heq.1, heq.2]
    · rfl

/-! ### What is told -/

/-- The membership of a group is the same. -/
theorem membership_eq (h : SameGroups m t) (hm : m.Orderly) (ht : t.Orderly)
    (hgeneration : (m.group group topic).generation ≤ maxWord64) :
    t.membership group topic = (m.group group topic).membership := by
  have hmembers : (t.membership group topic).members =
      ((m.group group topic).members.map (·.1)) := by
    refine (ht.ascending group topic).eq_of_mem_iff (Group.pairwise_membership (hm group topic))
      fun id => ?_
    rw [TableLog.mem_rosterOf, List.mem_map]
    constructor
    · rintro ⟨n, hn, rfl⟩
      have hrange := ht.range hn
      obtain ⟨r, hr, hin, rfl⟩ := TableLog.mem_idsOf.mp hn
      obtain ⟨id, seen, hid, -, hmem⟩ := (h.mem_iff hin).mp hr
      refine ⟨(id, seen), hmem, ?_⟩
      rw [TableLog.ofWord_eq_toNat hrange.1 hrange.2, hid, Int.toNat_natCast]
    · rintro ⟨⟨id, seen⟩, hmem, rfl⟩
      have hr : (⟨id, group, topic, seen⟩ : MemberRow) ∈ t.members :=
        (h.row_iff _).mpr ⟨id, seen, rfl, rfl, hmem⟩
      exact ⟨id, TableLog.mem_idsOf.mpr ⟨_, hr, TableLog.inGroup_iff.mpr ⟨rfl, rfl⟩, rfl⟩,
        TableLog.ofWord_natCast (ht.id_le _ hr)⟩
  have htold : (t.membership group topic).generation = (m.group group topic).generation := by
    show ofWord (t.generation group topic) = _
    rw [h.generation_eq]
    unfold ofWord
    simp only [maxWord64] at hgeneration
    omega
  show Membership.mk _ _ = Membership.mk _ _
  exact congrArg₂ Membership.mk htold hmembers

end SameGroups

end WorkQueue
