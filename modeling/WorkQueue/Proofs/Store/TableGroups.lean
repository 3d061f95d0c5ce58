import WorkQueue.Proofs.Store.Groups
import WorkQueue.Proofs.Store.Records

/-!
# Groups in tables

The members of all groups are rows of one table, and a group has a row with its generation. Member
numbers are kept as signed words. Numbers that do not fit would be put in another order, but the
store gives out none of them.

## Main definitions

* `TableLog.Orderly`: tables whose groups are in order
* `TableLog.Regroups`: a change of one group

## Main statements

* `TableLog.regroups_on`: a call changes one group or none
* `GroupStore TableLog`
-/

namespace WorkQueue

open GroupStore

namespace TableLog

/-- The numbers of the members of a group. -/
def idsOf (s : TableLog) (group topic : String) : List Int :=
  (s.members.filter (inGroup group topic)).map (·.id)

/-- Tables whose groups are in order: member numbers are unique and fit into words. -/
structure Orderly (s : TableLog) : Prop where
  sound : s.Sound
  nodup : (s.members.map (·.id)).Nodup
  id_nonneg : ∀ r ∈ s.members, 0 ≤ r.id
  id_le : ∀ r ∈ s.members, r.id ≤ maxSigned64
  generation_nonneg : ∀ key n, s.generations.lookup key = some n → 0 ≤ n

theorem orderly_empty : empty.Orderly :=
  ⟨sound_empty, List.nodup_nil, nofun, nofun, nofun⟩

/-- The generation of a group; one that does not exist has not begun. -/
def generationOf (s : TableLog) (group topic : String) : Nat :=
  ((s.generations.lookup (group, topic)).getD 0).toNat

/-- The members of a group, counted without an end. -/
def rosterOf (s : TableLog) (group topic : String) : Membership :=
  ⟨s.generationOf group topic, (s.membership group topic).members⟩

variable {s s' : TableLog} {group topic : String}

theorem ofWord_eq_toNat {n : Int} (low : 0 ≤ n) (high : n ≤ maxSigned64) : ofWord n = n.toNat := by
  unfold ofWord
  simp only [maxSigned64] at high
  rw [Int.emod_eq_of_lt low (by omega)]

/-- A number that has been given out is stored as it is. -/
theorem toWord_natCast {member : Nat} (h : (member : Int) ≤ maxSigned64) :
    toWord member = member :=
  toWord_eq_self (by simp only [minSigned64]; omega) h

theorem ofWord_natCast {member : Nat} (h : (member : Int) ≤ maxSigned64) :
    ofWord member = member :=
  ofWord_eq_toNat (Int.natCast_nonneg member) h

theorem mem_rosterOf {id : Nat} :
    id ∈ (s.rosterOf group topic).members ↔ ∃ n ∈ s.idsOf group topic, ofWord n = id := by
  simp only [rosterOf, membership, List.mem_map, List.mem_mergeSort, idsOf]

theorem rosterOf_congr (hids : s'.idsOf group topic = s.idsOf group topic)
    (hgeneration : s'.generationOf group topic = s.generationOf group topic) :
    s'.rosterOf group topic = s.rosterOf group topic := by
  unfold idsOf at hids
  unfold rosterOf membership
  simp only [hids, hgeneration]

theorem Orderly.range (h : s.Orderly) {n : Int} (hn : n ∈ s.idsOf group topic) :
    0 ≤ n ∧ n ≤ maxSigned64 := by
  obtain ⟨r, hr, rfl⟩ := List.mem_map.mp hn
  have hmem := (List.mem_filter.mp hr).1
  exact ⟨h.id_nonneg r hmem, h.id_le r hmem⟩

/-- Numbers that fit into words keep their order as naturals. -/
theorem Orderly.ascending (h : s.Orderly) (group topic : String) :
    (s.rosterOf group topic).members.Pairwise (· < ·) := by
  have hle : ((s.idsOf group topic).mergeSort fun a b => decide (a ≤ b)).Pairwise
      fun a b => decide (a ≤ b) = true :=
    List.pairwise_mergeSort (fun a b c => by simpa using Int.le_trans)
      (fun a b => by simpa using Int.le_total a b) _
  have hnodup : ((s.idsOf group topic).mergeSort fun a b => decide (a ≤ b)).Nodup :=
    (List.mergeSort_perm _ _).nodup_iff.mpr
      (h.nodup.sublist (List.Sublist.map _ List.filter_sublist))
  refine List.pairwise_map.mpr ((hle.and hnodup).imp_of_mem fun ha hb hab => ?_)
  have hrange := h.range (List.mem_mergeSort.mp ha)
  have hrange' := h.range (List.mem_mergeSort.mp hb)
  have hab' := of_decide_eq_true hab.1
  rw [ofWord_eq_toNat hrange.1 hrange.2, ofWord_eq_toNat hrange'.1 hrange'.2]
  have hne := hab.2
  omega

/-! ### Changes of one group -/

/-- What becomes of the tables when a group changes: the other groups stay. -/
structure Regroups (group topic : String) (s s' : TableLog) : Prop where
  orderly : s'.Orderly
  other : ∀ group' topic', ¬ (group' = group ∧ topic' = topic) →
    s'.rosterOf group' topic' = s.rosterOf group' topic'
  later : (s.rosterOf group topic).Later (s'.rosterOf group topic)

theorem Regroups.refl (h : s.Orderly) (group topic : String) : Regroups group topic s s :=
  ⟨h, fun _ _ _ => rfl, .refl _⟩

/-- The generation grows with the change. -/
theorem Orderly.bump (h : s.Orderly) (group topic : String) : (s.bump group topic).Orderly where
  sound := h.sound.congr rfl (Int.le_refl _)
  nodup := h.nodup
  id_nonneg := h.id_nonneg
  id_le := h.id_le
  generation_nonneg key n hn := by
    unfold TableLog.bump at hn
    rw [lookup_put_of_lawful] at hn
    split at hn
    · obtain rfl := Option.some.inj hn
      cases hold : s.generations.lookup (group, topic) with
      | none => simp
      | some old =>
        have hnonneg := h.generation_nonneg _ old hold
        rw [Option.getD_some]
        omega
    · exact h.generation_nonneg key n hn

theorem generationOf_bump (h : s.Orderly) (group topic group' topic' : String) :
    (s.bump group topic).generationOf group' topic' =
      if group' = group ∧ topic' = topic then s.generationOf group topic + 1
      else s.generationOf group' topic' := by
  unfold generationOf TableLog.bump
  rw [lookup_put_of_lawful]
  simp only [Prod.mk.injEq]
  split
  · cases hold : s.generations.lookup (group, topic) with
    | none => rfl
    | some old =>
      have hnonneg := h.generation_nonneg _ old hold
      simp only [Option.getD_some]
      omega
  · rfl

/-- A change of one group's members, with the next generation. -/
theorem Regroups.of_bump {kept : TableLog} (h : kept.Orderly)
    (hgenerations : kept.generations = s.generations)
    (hids : ∀ group' topic', ¬ (group' = group ∧ topic' = topic) →
      kept.idsOf group' topic' = s.idsOf group' topic') :
    Regroups group topic s (kept.bump group topic) := by
  have hkept : ∀ group' topic', kept.generationOf group' topic' = s.generationOf group' topic' :=
    fun group' topic' => by simp only [generationOf, hgenerations]
  refine ⟨h.bump group topic, fun group' topic' hother => ?_, .inr ?_⟩
  · refine rosterOf_congr (hids group' topic' hother) ?_
    rw [generationOf_bump h, if_neg hother, hkept]
  · show s.generationOf group topic < (kept.bump group topic).generationOf group topic
    rw [generationOf_bump h, if_pos ⟨rfl, rfl⟩, hkept]
    exact Nat.lt_succ_self _

/-- Some rows of the group are removed. -/
theorem Orderly.remove (h : s.Orderly) (goes : MemberRow → Bool) :
    Orderly { s with members := s.members.filter fun r => !goes r } where
  sound := h.sound.congr rfl (Int.le_refl _)
  nodup := h.nodup.sublist (List.Sublist.map _ List.filter_sublist)
  id_nonneg r hr := h.id_nonneg r (List.mem_filter.mp hr).1
  id_le r hr := h.id_le r (List.mem_filter.mp hr).1
  generation_nonneg := h.generation_nonneg

theorem inGroup_iff {r : MemberRow} :
    inGroup group topic r = true ↔ r.group = group ∧ r.topic = topic := by
  simp [inGroup]

theorem idsOf_remove {goes : MemberRow → Bool}
    (hgoes : ∀ r, goes r = true → inGroup group topic r = true) {group' topic' : String}
    (hother : ¬ (group' = group ∧ topic' = topic)) :
    idsOf { s with members := s.members.filter fun r => !goes r } group' topic' =
      s.idsOf group' topic' := by
  unfold idsOf
  dsimp only
  rw [List.filter_filter]
  congr 1
  apply List.filter_congr
  intro r _
  cases hr : goes r with
  | false => simp
  | true =>
    obtain ⟨hgroup, htopic⟩ := inGroup_iff.mp (hgoes r hr)
    have hnot : inGroup group' topic' r = false := by
      rw [Bool.eq_false_iff]
      intro hin
      obtain ⟨hgroup', htopic'⟩ := inGroup_iff.mp hin
      exact hother ⟨hgroup'.symm.trans hgroup, htopic'.symm.trans htopic⟩
    rw [hnot, Bool.false_and]

/-! ### Joining -/

theorem insertMember_eq_ok {row : MemberRow} (h : s.insertMember row = .ok s') :
    s' = { s with members := s.members ++ [row], lastMember := max s.lastMember row.id } ∧
      ∀ r ∈ s.members, r.id ≠ row.id := by
  unfold insertMember at h
  split at h
  · cases h
  · next hfree =>
    exact ⟨(Except.ok.inj h).symm, by simpa using hfree⟩

theorem Orderly.insertMember (h : s.Orderly) {row : MemberRow} (hs' : s.insertMember row = .ok s')
    (low : 0 ≤ row.id) (high : row.id ≤ maxSigned64) : s'.Orderly := by
  obtain ⟨rfl, hfree⟩ := insertMember_eq_ok hs'
  refine ⟨h.sound.congr rfl (Int.le_max_left _ _), ?_, ?_, ?_, h.generation_nonneg⟩
  · rw [List.map_append, List.nodup_append]
    refine ⟨h.nodup, by simp, fun a ha b hb => ?_⟩
    obtain ⟨r, hr, rfl⟩ := List.mem_map.mp ha
    rw [List.mem_singleton.mp hb]
    exact hfree r hr
  · intro r hr
    rcases List.mem_append.mp hr with hr | hr
    · exact h.id_nonneg r hr
    · rw [List.mem_singleton.mp hr]
      exact low
  · intro r hr
    rcases List.mem_append.mp hr with hr | hr
    · exact h.id_le r hr
    · rw [List.mem_singleton.mp hr]
      exact high

theorem idsOf_insertMember {row : MemberRow} (hs' : s.insertMember row = .ok s')
    (group' topic' : String) : s'.idsOf group' topic' = s.idsOf group' topic' ++
      if row.group = group' ∧ row.topic = topic' then [row.id] else [] := by
  obtain ⟨rfl, -⟩ := insertMember_eq_ok hs'
  unfold idsOf
  dsimp only
  rw [List.filter_append, List.map_append]
  congr 1
  by_cases hrow : row.group = group' ∧ row.topic = topic'
  · rw [if_pos hrow, List.filter_cons_of_pos (inGroup_iff.mpr hrow)]
    rfl
  · rw [if_neg hrow, List.filter_cons_of_neg (fun hin => hrow (inGroup_iff.mp hin))]
    rfl

/-- A join fails, or adds a row under the number above the largest one. -/
theorem join_eq (h : s.Orderly) (now : Nat) (group topic : String) :
    (∃ e, s.join now group topic = (.error e, s)) ∨
      ∃ fresh, s.insertMember ⟨s.lastMember + 1, group, topic, now⟩ = .ok fresh ∧
        s.lastMember + 1 ≤ maxSigned64 ∧ 0 ≤ s.lastMember + 1 ∧
        s.join now group topic = (.ok (ofWord (s.lastMember + 1)), fresh.bump group topic) := by
  have hnonneg := h.sound.lastMember_nonneg
  unfold join
  dsimp only
  split
  · exact .inl ⟨_, rfl⟩
  · next hfits =>
    split
    · exact .inl ⟨_, rfl⟩
    · next fresh hfresh =>
      exact .inr ⟨fresh, hfresh, by omega, by omega, rfl⟩

theorem regroups_join (h : s.Orderly) (now : Nat) (group topic : String) :
    Regroups group topic s (s.join now group topic).2 := by
  rcases join_eq h now group topic with ⟨e, hjoin⟩ | ⟨fresh, hfresh, high, low, hjoin⟩
  · rw [hjoin]
    exact .refl h group topic
  · rw [hjoin]
    refine .of_bump (h.insertMember hfresh low high) ?_ fun group' topic' hother => ?_
    · obtain ⟨rfl, -⟩ := insertMember_eq_ok hfresh
      rfl
    · rw [idsOf_insertMember hfresh, if_neg (fun heq => hother ⟨heq.1.symm, heq.2.symm⟩),
        List.append_nil]

/-! ### Heartbeats -/

/-- A refresh of a member that is there changes no group. -/
theorem idsOf_map {change : MemberRow → MemberRow} (hid : ∀ r, (change r).id = r.id)
    (hin : ∀ group topic r, inGroup group topic (change r) = inGroup group topic r)
    (group topic : String) :
    idsOf { s with members := s.members.map change } group topic = s.idsOf group topic := by
  unfold idsOf
  dsimp only
  rw [List.filter_map, List.map_map]
  have hfilter : inGroup group topic ∘ change = inGroup group topic := funext (hin group topic)
  have hmap : (fun r : MemberRow => r.id) ∘ change = fun r => r.id := funext hid
  rw [hfilter, hmap]

/-- The row of a member behind its refresh. -/
def refreshed (now : Nat) (group topic : String) (id : Int) (r : MemberRow) : MemberRow :=
  if r.id == id && inGroup group topic r then { r with lastSeen := now } else r

theorem id_refreshed (now : Nat) (group topic : String) (id : Int) (r : MemberRow) :
    (refreshed now group topic id r).id = r.id := by
  unfold refreshed
  split <;> rfl

theorem inGroup_refreshed (now : Nat) (group topic : String) (id : Int) (group' topic' : String)
    (r : MemberRow) :
    inGroup group' topic' (refreshed now group topic id r) = inGroup group' topic' r := by
  unfold refreshed
  split <;> rfl

/-- What a refresh makes of the tables: it leaves the groups as they are, or adds the member. -/
theorem refresh_cases (h : s.Orderly) {now : Nat} {id : Int} {rejoined : Bool} {fresh : TableLog}
    (hfresh : s.refresh now group topic id = .ok (rejoined, fresh)) :
    (rejoined = false ∧ fresh.Orderly ∧ fresh.generations = s.generations ∧
        ∀ group' topic', fresh.idsOf group' topic' = s.idsOf group' topic') ∨
      rejoined = true ∧ s.insertMember ⟨id, group, topic, now⟩ = .ok fresh := by
  unfold refresh at hfresh
  split at hfresh
  · obtain ⟨rfl, rfl⟩ := Prod.mk.inj (Except.ok.inj hfresh)
    have hids : (s.members.map (refreshed now group topic id)).map (·.id) =
        s.members.map (·.id) := by
      rw [List.map_map]
      exact congrArg (List.map · s.members) (funext (id_refreshed now group topic id))
    refine .inl ⟨rfl, ⟨h.sound.congr rfl (Int.le_refl _), ?_, ?_, ?_, h.generation_nonneg⟩, rfl,
      idsOf_map (id_refreshed now group topic id) (inGroup_refreshed now group topic id)⟩
    · show ((s.members.map (refreshed now group topic id)).map (·.id)).Nodup
      rw [hids]
      exact h.nodup
    · intro r hr
      obtain ⟨old, hold, rfl⟩ := List.mem_map.mp hr
      show 0 ≤ (refreshed now group topic id old).id
      rw [id_refreshed]
      exact h.id_nonneg old hold
    · intro r hr
      obtain ⟨old, hold, rfl⟩ := List.mem_map.mp hr
      show (refreshed now group topic id old).id ≤ maxSigned64
      rw [id_refreshed]
      exact h.id_le old hold
  · cases hinsert : s.insertMember ⟨id, group, topic, now⟩ with
    | error e => simp [hinsert, bind, Except.bind] at hfresh
    | ok inserted =>
      simp only [hinsert, bind, Except.bind, pure, Except.pure] at hfresh
      obtain ⟨rfl, rfl⟩ := Prod.mk.inj (Except.ok.inj hfresh)
      exact .inr ⟨rfl, rfl⟩

/-- The rows of a group that are late by a cutoff. -/
def stale (group topic : String) (cutoff : Int) (r : MemberRow) : Bool :=
  inGroup group topic r && decide (r.lastSeen < cutoff)

/-- A heartbeat fails, or refreshes the member, removes who is late, and tells who is left. -/
theorem heartbeat_eq (s : TableLog) (now : Nat) (group topic : String) (member timeout : Nat) :
    (∃ e, s.heartbeat now group topic member timeout = (.error e, s)) ∨
      ∃ rejoined fresh, s.refresh now group topic (toWord member) = .ok (rejoined, fresh) ∧
        ∃ late : MemberRow → Bool, (∀ r, late r = true → inGroup group topic r = true) ∧
          ∃ after, after = (if rejoined || fresh.members.any late then
              ({ fresh with members := fresh.members.filter fun r => !late r } : TableLog).bump
                group topic
            else { fresh with members := fresh.members.filter fun r => !late r }) ∧
            s.heartbeat now group topic member timeout =
              (.ok (after.membership group topic), after) := by
  unfold heartbeat
  split
  · exact .inl ⟨_, rfl⟩
  · next rejoined fresh hfresh =>
    refine .inr ⟨rejoined, fresh, hfresh, stale group topic (toWord (now - toWord timeout)),
      fun r hr => ?_, _, rfl, rfl⟩
    exact (Bool.and_eq_true_iff.mp hr).1

theorem regroups_heartbeat (h : s.Orderly) (now : Nat) (group topic : String) {member : Nat}
    (hmember : (member : Int) ≤ maxSigned64) (timeout : Nat) :
    Regroups group topic s (s.heartbeat now group topic member timeout).2 := by
  rcases s.heartbeat_eq now group topic member timeout with
    ⟨e, heq⟩ | ⟨rejoined, fresh, hfresh, late, hlate, after, hafter, heq⟩
  · rw [heq]
    exact .refl h group topic
  rw [heq, hafter]
  rw [toWord_natCast hmember] at hfresh
  rcases refresh_cases h hfresh with ⟨rfl, horderly, hgenerations, hids⟩ | ⟨rfl, hinsert⟩
  · have hkept : ∀ group' topic', ¬ (group' = group ∧ topic' = topic) →
        idsOf { fresh with members := fresh.members.filter fun r => !late r } group' topic' =
          s.idsOf group' topic' :=
      fun group' topic' hother => (idsOf_remove hlate hother).trans (hids group' topic')
    cases hany : fresh.members.any late with
    | true => exact .of_bump (horderly.remove late) hgenerations hkept
    | false =>
      -- nobody is late, so nobody is removed
      have hall : (fresh.members.filter fun r => !late r) = fresh.members := by
        rw [List.filter_eq_self]
        intro r hr
        have hr' := List.any_eq_false.mp hany r hr
        simpa using hr'
      have hsame : ∀ group' topic', rosterOf { fresh with
          members := fresh.members.filter fun r => !late r } group' topic' =
            s.rosterOf group' topic' := by
        intro group' topic'
        refine rosterOf_congr ?_ ?_
        · rw [hall]
          exact hids group' topic'
        · simp only [generationOf, hgenerations]
      exact ⟨horderly.remove late, fun group' topic' _ => hsame group' topic', .inl (hsame _ _)⟩
  · have horderly := h.insertMember hinsert (Int.natCast_nonneg member) hmember
    refine .of_bump (horderly.remove late) ?_ fun group' topic' hother => ?_
    · obtain ⟨rfl, -⟩ := insertMember_eq_ok hinsert
      rfl
    · rw [idsOf_remove hlate hother, idsOf_insertMember hinsert,
        if_neg (fun heq => hother ⟨heq.1.symm, heq.2.symm⟩), List.append_nil]

/-! ### Leaving -/

theorem regroups_leave (h : s.Orderly) (group topic : String) (member : Nat) :
    Regroups group topic s (s.leave group topic member) := by
  unfold leave
  dsimp only
  split
  · refine .of_bump (h.remove _) rfl fun group' topic' hother => idsOf_remove (fun r hr => ?_) hother
    exact (Bool.and_eq_true_iff.mp hr).2
  · exact .refl h group topic

/-! ### What is told -/

/-- A generation that fits into a word is told as it is. -/
theorem generation_membership (h : s.Orderly) (hfits : s.generationOf group topic ≤ maxWord64) :
    (s.membership group topic).generation = s.generationOf group topic := by
  have hnonneg : 0 ≤ (s.generations.lookup (group, topic)).getD 0 := by
    cases hn : s.generations.lookup (group, topic) with
    | none => exact Int.le_refl 0
    | some n => exact h.generation_nonneg _ n hn
  unfold generationOf at hfits ⊢
  unfold membership ofWord
  dsimp only
  generalize (s.generations.lookup (group, topic)).getD 0 = n at hfits hnonneg ⊢
  rw [Int.emod_eq_of_lt hnonneg (by simp only [maxWord64] at hfits; omega)]

theorem mem_idsOf_of_remove {goes : MemberRow → Bool} {n : Int}
    (hn : n ∈ idsOf { s with members := s.members.filter fun r => !goes r } group topic) :
    n ∈ s.idsOf group topic := by
  obtain ⟨r, hr, rfl⟩ := List.mem_map.mp hn
  obtain ⟨hmem, hin⟩ := List.mem_filter.mp hr
  exact List.mem_map.mpr ⟨r, List.mem_filter.mpr ⟨(List.mem_filter.mp hmem).1, hin⟩, rfl⟩

theorem mem_idsOf_of_refresh (h : s.Orderly) {now : Nat} {id n : Int} {rejoined : Bool}
    {fresh : TableLog} (hfresh : s.refresh now group topic id = .ok (rejoined, fresh))
    (hn : n ∈ fresh.idsOf group topic) : n = id ∨ n ∈ s.idsOf group topic := by
  rcases refresh_cases h hfresh with ⟨-, -, -, hids⟩ | ⟨-, hinsert⟩
  · exact .inr (hids group topic ▸ hn)
  · rw [idsOf_insertMember hinsert, if_pos ⟨rfl, rfl⟩] at hn
    rcases List.mem_append.mp hn with hold | hnew
    · exact .inr hold
    · exact .inl (List.mem_singleton.mp hnew)

theorem mem_idsOf_of_leave {member : Nat} {n : Int}
    (hn : n ∈ (s.leave group topic member).idsOf group topic) :
    n ≠ toWord member ∧ n ∈ s.idsOf group topic := by
  have hkept : ∃ r ∈ s.members, inGroup group topic r = true ∧ r.id = n ∧
      ¬ (r.id = toWord member ∧ inGroup group topic r = true) := by
    unfold leave at hn
    dsimp only at hn
    split at hn
    · obtain ⟨r, hr, rfl⟩ := List.mem_map.mp hn
      obtain ⟨hmem, hin⟩ := List.mem_filter.mp hr
      obtain ⟨hmem, hstays⟩ := List.mem_filter.mp hmem
      exact ⟨r, hmem, hin, rfl, by simpa [imp_iff_not_or] using hstays⟩
    · next hnone =>
      obtain ⟨r, hr, rfl⟩ := List.mem_map.mp hn
      obtain ⟨hmem, hin⟩ := List.mem_filter.mp hr
      have hstays := List.any_eq_false.mp (Bool.eq_false_iff.mpr hnone) r hmem
      exact ⟨r, hmem, hin, rfl, by simpa using hstays⟩
  obtain ⟨r, hmem, hin, rfl, hstays⟩ := hkept
  exact ⟨fun heq => hstays ⟨heq, hin⟩, List.mem_map.mpr ⟨r, List.mem_filter.mpr ⟨hmem, hin⟩, rfl⟩⟩

/-- What a call does to the groups: it changes one that it concerns, or nothing. -/
theorem regroups_on (h : s.Orderly) (call : StoreCall)
    (hby : call.By fun member => (member : Int) ≤ maxSigned64) :
    ((call.on s).Orderly ∧ ∀ group topic, (call.on s).rosterOf group topic = s.rosterOf group topic) ∨
      ∃ group topic, call.Concerns group topic ∧ Regroups group topic s (call.on s) := by
  cases call with
  | join now group topic => exact .inr ⟨group, topic, ⟨rfl, rfl⟩, regroups_join h now group topic⟩
  | heartbeat now group topic member timeout =>
    exact .inr ⟨group, topic, ⟨rfl, rfl⟩, regroups_heartbeat h now group topic hby timeout⟩
  | leave group topic member =>
    exact .inr ⟨group, topic, ⟨rfl, rfl⟩, regroups_leave h group topic member⟩
  | append topic p key value =>
    have hsound := LawfulStore.append_steady topic p key value s h.sound
    left
    show (s.append topic p key value).2.Orderly ∧ ∀ group topic',
      (s.append topic p key value).2.rosterOf group topic' = s.rosterOf group topic'
    rcases s.append_cases topic p key value with ⟨e, heq⟩ | ⟨offset, heq⟩
    · rw [heq]
      exact ⟨h, fun _ _ => rfl⟩
    · have hsound' : (s.append topic p key value).2.Sound := hsound.sound
      rw [heq] at hsound' ⊢
      exact ⟨⟨hsound', h.nodup, h.id_nonneg, h.id_le, h.generation_nonneg⟩, fun _ _ => rfl⟩
  | createTopic topic n =>
    left
    simp only [StoreCall.on, LogStore.createTopic, StoreM.on_update]
    split
    · exact ⟨h, fun _ _ => rfl⟩
    · exact ⟨⟨h.sound.congr rfl (Int.le_refl _), h.nodup, h.id_nonneg, h.id_le,
        h.generation_nonneg⟩, fun _ _ => rfl⟩
  | commit group topic p next =>
    exact .inl ⟨⟨h.sound.congr rfl (Int.le_refl _), h.nodup, h.id_nonneg, h.id_le,
      h.generation_nonneg⟩, fun _ _ => rfl⟩
  | partitions topic => exact .inl ⟨h, fun _ _ => rfl⟩
  | read topic p start limit => exact .inl ⟨h, fun _ _ => rfl⟩
  | committed group topic p => exact .inl ⟨h, fun _ _ => rfl⟩

instance : GroupStore TableLog where
  roster := rosterOf
  Orderly := Orderly
  Valid member := (member : Int) ≤ maxSigned64
  sound_of_orderly _ h := h.sound
  ascending_roster _ h := h.ascending
  orderly_on call s h hby := by
    rcases regroups_on h call hby with ⟨horderly, -⟩ | ⟨group, topic, -, hregroups⟩
    · exact horderly
    · exact hregroups.orderly
  roster_on call s h hby group topic := by
    rcases regroups_on h call hby with ⟨-, hsame⟩ | ⟨group', topic', hconcerns, hregroups⟩
    · rw [hsame]
      exact ⟨.refl _, fun _ => rfl⟩
    · by_cases heq : group = group' ∧ topic = topic'
      · obtain ⟨rfl, rfl⟩ := heq
        exact ⟨hregroups.later, fun hnot => absurd hconcerns hnot⟩
      · rw [hregroups.other group topic heq]
        exact ⟨.refl _, fun _ => rfl⟩
  join_valid now group topic s h := by
    rw [ensures_on]
    show (∀ id, (s.join now group topic).1 = .ok id → _) ∧
      ∀ id ∈ ((s.join now group topic).2.rosterOf group topic).members, _ ∨
        (s.join now group topic).1 = .ok id
    rcases join_eq h now group topic with ⟨e, hjoin⟩ | ⟨fresh, hfresh, high, low, hjoin⟩
    · rw [hjoin]
      exact ⟨nofun, fun id hid => .inl hid⟩
    · rw [hjoin]
      constructor
      · intro id hid
        obtain rfl := Except.ok.inj hid
        rw [ofWord_eq_toNat low high]
        omega
      · intro id hid
        obtain ⟨n, hn, rfl⟩ := mem_rosterOf.mp hid
        have hn' : n ∈ fresh.idsOf group topic := hn
        rw [idsOf_insertMember hfresh, if_pos ⟨rfl, rfl⟩] at hn'
        rcases List.mem_append.mp hn' with hold | hnew
        · exact .inl (mem_rosterOf.mpr ⟨n, hold, rfl⟩)
        · rw [List.mem_singleton.mp hnew]
          exact .inr rfl
  heartbeat_tells now group topic member timeout s h hmember := by
    rw [ensures_on]
    show (∀ m, (s.heartbeat now group topic member timeout).1 = .ok m →
        m.members = ((s.heartbeat now group topic member timeout).2.rosterOf group topic).members ∧
          (((s.heartbeat now group topic member timeout).2.rosterOf group topic).generation ≤ _ →
            m.generation =
              ((s.heartbeat now group topic member timeout).2.rosterOf group topic).generation)) ∧
      ∀ id ∈ ((s.heartbeat now group topic member timeout).2.rosterOf group topic).members, _
    have horderly := (regroups_heartbeat h now group topic hmember timeout).orderly
    rcases s.heartbeat_eq now group topic member timeout with
      ⟨e, heq⟩ | ⟨rejoined, fresh, hfresh, late, -, after, hafter, heq⟩
    · rw [heq]
      exact ⟨nofun, fun id hid => .inr hid⟩
    rw [heq] at horderly ⊢
    constructor
    · intro m hm
      obtain rfl := Except.ok.inj hm
      exact ⟨rfl, fun hfits => generation_membership horderly hfits⟩
    · intro id hid
      obtain ⟨n, hn, rfl⟩ := mem_rosterOf.mp hid
      have hleft : n ∈ idsOf { fresh with members := fresh.members.filter fun r => !late r }
          group topic := by
        rw [hafter] at hn
        split at hn <;> exact hn
      rw [toWord_natCast hmember] at hfresh
      rcases mem_idsOf_of_refresh h hfresh (mem_idsOf_of_remove hleft) with rfl | hold
      · exact .inl (ofWord_natCast hmember)
      · exact .inr (mem_rosterOf.mpr ⟨n, hold, rfl⟩)
  leave_members group topic member s h hmember := by
    rw [ensures_on]
    intro id hid
    obtain ⟨n, hn, rfl⟩ := mem_rosterOf.mp hid
    obtain ⟨hne, hold⟩ := mem_idsOf_of_leave hn
    rw [toWord_natCast hmember] at hne
    have hrange := h.range hold
    refine ⟨fun heq => hne ?_, mem_rosterOf.mpr ⟨n, hold, rfl⟩⟩
    rw [ofWord_eq_toNat hrange.1 hrange.2] at heq
    omega

end TableLog

end WorkQueue
