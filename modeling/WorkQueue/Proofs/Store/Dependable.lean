import WorkQueue.Proofs.Store.MemoryGroups
import WorkQueue.Proofs.Store.TableGroups

/-!
# Stores that do not fail their members

A member stays one as long as it is not removed by somebody else. So its own heartbeats succeed, and
so do commits. In tables this asks for a clock and a timeout that fit into words, since otherwise a
member can be late by its own heartbeat.

## Main definitions

* `DependableStore`: a group store that can be depended on

## Main statements

* `TableLog.mem_idsOf_heartbeat`: in time, a member survives its own heartbeat
* `DependableStore MemoryLog`, `DependableStore TableLog`
-/

namespace WorkQueue

open GroupStore

/-- A group store that does not fail its members. -/
class DependableStore (σ : Type) [LogStore σ] extends GroupStore σ where
  /-- A clock and a timeout by which nobody is late by a heartbeat of its own. -/
  Timely : Nat → Nat → Prop
  join_member (now : Nat) (group topic : String) (s : σ) (h : Orderly s) :
    Ensures (LogStore.join now group topic) s fun result s' => ∀ id, result = .ok id →
      id ∈ (roster s' group topic).members
  heartbeat_member (now : Nat) (group topic : String) (member timeout : Nat) (s : σ)
    (h : Orderly s) (hmember : member ∈ (roster s group topic).members)
    (htimely : Timely now timeout) :
    Ensures (LogStore.heartbeat now group topic member timeout) s fun result s' =>
      (∃ m, result = .ok m) ∧ member ∈ (roster s' group topic).members
  commit_done (group topic : String) (partition next : Int) (s : σ) :
    Ensures (LogStore.commit group topic partition next) s fun result _ => result = .ok ()

namespace MemoryLog

instance : DependableStore MemoryLog where
  Timely _ _ := True
  join_member now group topic s _ := by
    intro id hid
    obtain rfl := Except.ok.inj hid
    show _ ∈ (MemoryLog.group (s.join now group topic).2 group topic).membership.members
    unfold join
    rw [group_setGroup, if_pos ⟨rfl, rfl⟩]
    exact Group.mem_touch.mpr (.inl rfl)
  heartbeat_member now group topic member timeout s _ _ _ := by
    refine ⟨⟨_, rfl⟩, ?_⟩
    show member ∈ (MemoryLog.group (s.setGroup group topic _) group topic).membership.members
    rw [group_setGroup, if_pos ⟨rfl, rfl⟩]
    exact Group.mem_touch.mpr (.inl rfl)
  commit_done _ _ _ _ _ := rfl

end MemoryLog

namespace TableLog

variable {s : TableLog} {group topic : String}

theorem mem_idsOf {n : Int} : n ∈ s.idsOf group topic ↔
    ∃ r ∈ s.members, inGroup group topic r = true ∧ r.id = n := by
  simp [idsOf, and_assoc]

theorem mem_idsOf_bump {n : Int} :
    n ∈ (s.bump group topic).idsOf group topic ↔ n ∈ s.idsOf group topic := Iff.rfl

/-- A member's number is kept as it is. -/
theorem Orderly.mem_idsOf_of_member (h : s.Orderly) {member : Nat}
    (hmember : member ∈ (s.rosterOf group topic).members) :
    (member : Int) ∈ s.idsOf group topic ∧ (member : Int) ≤ maxSigned64 := by
  obtain ⟨n, hn, hword⟩ := mem_rosterOf.mp hmember
  have hrange := h.range hn
  rw [ofWord_eq_toNat hrange.1 hrange.2] at hword
  have hnumber : (member : Int) = n := by omega
  rw [hnumber]
  exact ⟨hn, hrange.2⟩

/-- A refresh of somebody who is there. -/
theorem refresh_eq {now : Nat} {id : Int} (h : id ∈ s.idsOf group topic) :
    s.refresh now group topic id =
      .ok (false, { s with members := s.members.map (refreshed now group topic id) }) := by
  obtain ⟨r, hr, hin, rfl⟩ := mem_idsOf.mp h
  unfold refresh
  rw [if_pos]
  · rfl
  · exact List.any_eq_true.mpr ⟨r, hr, by simp [hin]⟩

theorem stale_iff {cutoff : Int} {r : MemberRow} :
    stale group topic cutoff r = true ↔ inGroup group topic r = true ∧ r.lastSeen < cutoff := by
  rw [stale, Bool.and_eq_true, decide_eq_true_eq]

/-- The cutoff is that long ago, as long as the clock and the timeout fit into words. -/
theorem cutoff_eq {now timeout : Nat} (hnow : (now : Int) ≤ maxSigned64)
    (htimeout : (timeout : Int) ≤ maxSigned64) :
    toWord (now - toWord timeout) = (now : Int) - timeout := by
  rw [toWord_natCast htimeout, toWord_eq_self]
  · simp only [minSigned64, maxSigned64] at htimeout ⊢
    omega
  · omega

/-- Who has been seen just now is not late. -/
theorem cutoff_le {now timeout : Nat} (hnow : (now : Int) ≤ maxSigned64)
    (htimeout : (timeout : Int) ≤ maxSigned64) : toWord (now - toWord timeout) ≤ now := by
  rw [cutoff_eq hnow htimeout]
  omega

/-- A member survives its own heartbeat. -/
theorem mem_idsOf_heartbeat {now timeout member : Nat}
    (hmember : (member : Int) ∈ s.idsOf group topic) (hid : (member : Int) ≤ maxSigned64)
    (hnow : (now : Int) ≤ maxSigned64) (htimeout : (timeout : Int) ≤ maxSigned64) :
    (∃ m, (s.heartbeat now group topic member timeout).1 = .ok m) ∧
      (member : Int) ∈ (s.heartbeat now group topic member timeout).2.idsOf group topic := by
  obtain ⟨r, hr, hin, hrid⟩ := mem_idsOf.mp hmember
  have hkept : (member : Int) ∈ idsOf { s with
      members := (s.members.map (refreshed now group topic member)).filter fun r =>
        !stale group topic (toWord (now - toWord timeout)) r } group topic := by
    refine mem_idsOf.mpr ⟨refreshed now group topic member r, List.mem_filter.mpr
      ⟨List.mem_map_of_mem hr, ?_⟩, ?_, ?_⟩
    -- it has been seen just now
    · have hseen : (refreshed now group topic member r).lastSeen = now := by
        simp [refreshed, hrid, hin]
      have hcutoff := cutoff_le hnow htimeout
      simp [stale, hseen]
      omega
    · rw [inGroup_refreshed]
      exact hin
    · rw [id_refreshed]
      exact hrid
  unfold heartbeat
  rw [toWord_natCast hid, refresh_eq hmember]
  refine ⟨⟨_, rfl⟩, ?_⟩
  dsimp only
  split
  · exact mem_idsOf_bump.mpr hkept
  · exact hkept

instance : DependableStore TableLog where
  Timely now timeout := (now : Int) ≤ maxSigned64 ∧ (timeout : Int) ≤ maxSigned64
  join_member now group topic s h := by
    rw [ensures_on]
    show ∀ id, (s.join now group topic).1 = .ok id →
      id ∈ ((s.join now group topic).2.rosterOf group topic).members
    intro id hid
    rcases join_eq h now group topic with ⟨e, hjoin⟩ | ⟨fresh, hfresh, high, low, hjoin⟩
    · rw [hjoin] at hid
      cases hid
    · rw [hjoin] at hid ⊢
      obtain rfl := Except.ok.inj hid
      refine mem_rosterOf.mpr ⟨s.lastMember + 1, mem_idsOf_bump.mpr ?_, rfl⟩
      rw [idsOf_insertMember hfresh, if_pos ⟨rfl, rfl⟩]
      exact List.mem_append_right _ (List.mem_singleton_self _)
  heartbeat_member now group topic member timeout s h hmember htimely := by
    obtain ⟨hn, hid⟩ := h.mem_idsOf_of_member hmember
    obtain ⟨hok, hkept⟩ := mem_idsOf_heartbeat hn hid htimely.1 htimely.2
    exact ⟨hok, mem_rosterOf.mpr ⟨member, hkept, ofWord_natCast hid⟩⟩
  commit_done _ _ _ _ _ := rfl

end TableLog

end WorkQueue
