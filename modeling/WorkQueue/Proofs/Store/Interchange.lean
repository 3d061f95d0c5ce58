import WorkQueue.Proofs.Store.SameGroups
import WorkQueue.Proofs.Store.SameLogs

/-!
# Either store will do

A broker works on any log store. That it does not matter which one it is given is a matter of what
the stores tell: starting with nothing in them, a store in memory and a store in tables tell the same
on every call, numbers, records, memberships and errors alike. Between two calls they keep the same
topics, records, positions and groups, whatever the clock does.

Numbers in tables are signed words. So clocks and timeouts have to fit into one, and there cannot be
more calls than such a word can count.

## Main definitions

* `StoreAnswer`, `StoreCall.answer`, `answers`: what calls tell
* `Proper`: the calls that a broker makes
* `Agree`: the two stores keep the same

## Main statements

* `Agree.step`: a call is answered alike, and the stores keep the same behind it
* `answers_memory_eq_tables`: all calls are answered alike
-/

namespace WorkQueue

/-! ## What is told -/

/-- What a call tells. -/
inductive StoreAnswer where
  | done
  | partitions (number : Option Int)
  | offset (offset : Int)
  | records (records : List Record)
  | position (next : Option Int)
  | member (id : Nat)
  | membership (membership : Membership)

section

variable {σ : Type} [LogStore σ]

/-- What a call to a store tells. -/
def StoreCall.answer (call : StoreCall) (s : σ) : Except BrokerError StoreAnswer :=
  match call with
  | .createTopic topic n => (StoreM.on (LogStore.createTopic topic n) s).1.map fun _ => .done
  | .partitions topic => (StoreM.on (LogStore.partitions topic) s).1.map .partitions
  | .append topic p key value => (StoreM.on (LogStore.append topic p key value) s).1.map .offset
  | .read topic p start limit => (StoreM.on (LogStore.read topic p start limit) s).1.map .records
  | .committed group topic p => (StoreM.on (LogStore.committed group topic p) s).1.map .position
  | .commit group topic p next =>
    (StoreM.on (LogStore.commit group topic p next) s).1.map fun _ => .done
  | .join now group topic => (StoreM.on (LogStore.join now group topic) s).1.map .member
  | .heartbeat now group topic member timeout =>
    (StoreM.on (LogStore.heartbeat now group topic member timeout) s).1.map .membership
  | .leave group topic member =>
    (StoreM.on (LogStore.leave group topic member) s).1.map fun _ => .done

/-- What calls tell, one after the other. -/
def answers : List StoreCall → σ → List (Except BrokerError StoreAnswer)
  | [], _ => []
  | call :: rest, s => call.answer s :: answers rest (call.on s)

/-- The numbers that have been given out, for which groups, behind a call. -/
def StoreCall.given (call : StoreCall) (s : σ) (before : Nat → String → String → Prop) :
    Nat → String → String → Prop :=
  match call with
  | .join now group topic => fun id g t =>
    before id g t ∨ (StoreM.on (LogStore.join now group topic) s).1 = .ok id ∧ g = group ∧ t = topic
  | _ => before

/-- Is this a call that a broker makes? It reads partitions that are there, and sends heartbeats and
leaves as somebody who joined the group. -/
def StoreCall.Proper (given : Nat → String → String → Prop) (s : σ) : StoreCall → Prop
  | .read topic p _ limit => limit ≤ maxWord64 ∧
    ∃ n, (StoreM.on (LogStore.partitions topic) s).1 = .ok (some n) ∧ 0 ≤ p ∧ p < n
  | .heartbeat now group topic member timeout => given member group topic ∧
    (now : Int) ≤ maxSigned64 ∧ (timeout : Int) ≤ maxSigned64
  | .leave group topic member => given member group topic
  | _ => True

/-- Are all of these calls that a broker makes, one after the other? -/
def Proper (given : Nat → String → String → Prop) : List StoreCall → σ → Prop
  | [], _ => True
  | call :: rest, s => call.Proper given s ∧ Proper (call.given s given) rest (call.on s)

end

/-! ## No call counts more than one -/

namespace Group

variable {g : Group} {now member timeout : Nat}

theorem generation_heartbeat_le : (g.heartbeat now member timeout).generation ≤ g.generation + 1 := by
  by_cases hchanges : g.Changes now member timeout
  · rw [generation_heartbeat hchanges]
  · rw [generation_heartbeat_of_not hchanges]
    exact Nat.le_succ _

theorem generation_leave_le : (g.leave member).generation ≤ g.generation + 1 := by
  unfold leave
  split
  · exact Nat.le_refl _
  · exact Nat.le_succ _

end Group

namespace MemoryLog

/-- Nothing in the store counts further than so far. -/
structure Counted (count : Nat) (m : MemoryLog) : Prop where
  lastMember_le : m.lastMember ≤ count
  generation_le (group topic : String) : (m.group group topic).generation ≤ count
  length_le (topic : String) (p : Int) : (m.recordsOf topic p).length ≤ count

variable {m m' : MemoryLog} {count : Nat}

theorem counted_empty : Counted 0 .empty := ⟨Nat.le_refl 0, fun _ _ => Nat.le_refl 0,
  fun _ _ => Nat.le_refl 0⟩

/-- A leave changes nothing but the group. -/
theorem leave_keeps (m : MemoryLog) (group topic : String) (member : Nat) :
    ∃ groups, (StoreCall.leave group topic member).on m = { m with groups } := by
  simp only [StoreCall.on, LogStore.leave, StoreM.on_update]
  split
  · exact ⟨_, rfl⟩
  · exact ⟨_, rfl⟩

/-- One group changes, and its generation grows by one at most. -/
theorem Counted.replace (h : Counted count m) {group topic : String} {g : Group}
    (hgroup : ∀ group' topic', m'.group group' topic' =
      if group' = group ∧ topic' = topic then g else m.group group' topic')
    (hg : g.generation ≤ (m.group group topic).generation + 1)
    (hlast : m'.lastMember ≤ m.lastMember + 1) (htopics : m'.topics = m.topics) :
    Counted (count + 1) m' where
  lastMember_le := Nat.le_trans hlast (Nat.succ_le_succ h.lastMember_le)
  generation_le group' topic' := by
    rw [hgroup]
    split
    · exact Nat.le_trans hg (Nat.succ_le_succ (h.generation_le group topic))
    · exact Nat.le_succ_of_le (h.generation_le group' topic')
  length_le topic' p := by
    rw [recordsOf_congr htopics]
    exact Nat.le_succ_of_le (h.length_le topic' p)

/-- The groups stay, and a partition grows by one record at most. -/
theorem Counted.grow (h : Counted count m) (hgroups : m'.groups = m.groups)
    (hlast : m'.lastMember = m.lastMember)
    (hrecords : ∀ topic p, (m'.recordsOf topic p).length ≤ (m.recordsOf topic p).length + 1) :
    Counted (count + 1) m' where
  lastMember_le := hlast ▸ Nat.le_succ_of_le h.lastMember_le
  generation_le group topic := by
    show ((m'.groups.lookup (group, topic)).getD {}).generation ≤ _
    rw [hgroups]
    exact Nat.le_succ_of_le (h.generation_le group topic)
  length_le topic p := Nat.le_trans (hrecords topic p) (Nat.succ_le_succ (h.length_le topic p))

/-- A call counts one further at most. -/
theorem Counted.on (h : Counted count m) (call : StoreCall) : Counted (count + 1) (call.on m) := by
  cases call with
  | createTopic topic n =>
    simp only [StoreCall.on, LogStore.createTopic, StoreM.on_update]
    cases htopic : m.topic? topic with
    | some logs => exact h.grow rfl rfl fun _ _ => Nat.le_succ _
    | none =>
      refine h.grow rfl rfl fun topic' p => ?_
      rw [recordsOf_createTopic htopic]
      exact Nat.le_succ _
  | append topic p key value =>
    show Counted (count + 1) (m.append topic p key value).2
    cases hlog : m.log topic p with
    | error e =>
      rw [append, hlog]
      exact h.grow rfl rfl fun _ _ => Nat.le_succ _
    | ok found =>
      refine h.grow ?_ ?_ fun topic' p' => ?_
      · rw [append, hlog]
      · rw [append, hlog]
      · rw [recordsOf_append hlog, List.length_append]
        split
        · exact Nat.le_refl _
        · exact Nat.le_succ _
  | partitions topic => exact h.grow rfl rfl fun _ _ => Nat.le_succ _
  | read topic p start limit => exact h.grow rfl rfl fun _ _ => Nat.le_succ _
  | committed group topic p => exact h.grow rfl rfl fun _ _ => Nat.le_succ _
  | commit group topic p next => exact h.grow rfl rfl fun _ _ => Nat.le_succ _
  | join now group topic =>
    exact h.replace (group_setGroup _ group topic _) (Nat.le_refl _) (Nat.le_refl _) rfl
  | heartbeat now group topic member timeout =>
    exact h.replace (group_setGroup _ group topic _) Group.generation_heartbeat_le (Nat.le_succ _)
      rfl
  | leave group topic member =>
    obtain ⟨groups, hgroups⟩ := leave_keeps m group topic member
    refine h.replace (group_leave m group topic member) Group.generation_leave_le ?_ ?_
    · rw [hgroups]
      exact Nat.le_succ _
    · rw [hgroups]

end MemoryLog

/-! ## Agreement -/

/-- The two stores keep the same, their groups are in order, and nothing in them counts further than
so far. -/
structure Agree (given : Nat → String → String → Prop) (count : Nat) (m : MemoryLog)
    (t : TableLog) : Prop where
  logs : SameLogs m t
  groups : SameGroups m t
  listed : Listed given m
  memory : m.Orderly
  tables : t.Orderly
  counted : m.Counted count

namespace Agree

variable {given : Nat → String → String → Prop} {count : Nat} {m : MemoryLog} {t : TableLog}

theorem empty : Agree (fun _ _ _ => False) 0 .empty .empty :=
  ⟨.empty, .empty, .empty, MemoryLog.orderly_empty, TableLog.orderly_empty,
    MemoryLog.counted_empty⟩

/-- A call is made by somebody whose number fits into a word. -/
theorem by_of_proper (h : Agree given count m t) (hcount : (count : Int) ≤ maxSigned64)
    {call : StoreCall} (hproper : call.Proper given m) :
    call.By fun member => (member : Int) ≤ maxSigned64 := by
  have hword : ∀ {id group topic}, given id group topic → (id : Int) ≤ maxSigned64 := by
    intro id group topic hgiven
    have hle := h.listed.given_le hgiven
    have hlast := h.counted.lastMember_le
    omega
  cases call with
  | heartbeat => exact hword hproper.1
  | leave => exact hword hproper
  | _ => trivial

/-- Calls that leave the groups alone leave them the same. -/
theorem groups_kept (h : Agree given count m t) {m' : MemoryLog} {t' : TableLog}
    (hm : m'.groups = m.groups ∧ m'.lastMember = m.lastMember)
    (ht : t'.generations = t.generations ∧ t'.members = t.members ∧ t'.lastMember = t.lastMember) :
    SameGroups m' t' ∧ Listed given m' := by
  have hgroups : ∀ group topic, m'.group group topic = m.group group topic := by
    intro group topic
    rw [MemoryLog.group, hm.1, MemoryLog.group]
  exact ⟨h.groups.congr hgroups hm.2 ht.1 ht.2.1 ht.2.2, h.listed.congr hgroups hm.2⟩

/-- What becomes of the logs and the groups with a call, and what it tells. -/
structure Alike (given : Nat → String → String → Prop) (m : MemoryLog) (t : TableLog)
    (call : StoreCall) : Prop where
  answer_eq : call.answer m = call.answer t
  logs : SameLogs (call.on m) (call.on t)
  groups : SameGroups (call.on m) (call.on t)
  listed : Listed (call.given m given) (call.on m)

theorem createTopic (h : Agree given count m t) (topic : String) (n : Int) :
    Alike given m t (.createTopic topic n) := by
  have hgroups : SameGroups ((StoreCall.createTopic topic n).on m)
      ((StoreCall.createTopic topic n).on t) ∧
      Listed given ((StoreCall.createTopic topic n).on m) := by
    refine h.groups_kept ?_ ?_
    · simp only [StoreCall.on, LogStore.createTopic, StoreM.on_update]
      split
      · exact ⟨rfl, rfl⟩
      · exact ⟨rfl, rfl⟩
    · simp only [StoreCall.on, LogStore.createTopic, StoreM.on_update]
      split
      · exact ⟨rfl, rfl, rfl⟩
      · exact ⟨rfl, rfl, rfl⟩
  exact ⟨rfl, h.logs.createTopic topic n, hgroups.1, hgroups.2⟩

theorem append (h : Agree given count m t) (topic : String) (p : Int) (key : String)
    (value : ByteArray) : Alike given m t (.append topic p key value) := by
  have hgroups : SameGroups (m.append topic p key value).2 (t.append topic p key value).2 ∧
      Listed given (m.append topic p key value).2 := by
    refine h.groups_kept ?_ ?_
    · unfold MemoryLog.append
      split
      · exact ⟨rfl, rfl⟩
      · exact ⟨rfl, rfl⟩
    · rcases t.append_cases topic p key value with ⟨e, heq⟩ | ⟨offset, heq⟩
      · rw [heq]
        exact ⟨rfl, rfl, rfl⟩
      · rw [heq]
        exact ⟨rfl, rfl, rfl⟩
  exact ⟨congrArg (·.map StoreAnswer.offset) (h.logs.append_eq h.tables.sound topic p key value).symm,
    h.logs.append h.tables.sound topic p key value, hgroups.1, hgroups.2⟩

theorem join (h : Agree given count m t) (hcount : (count : Int) < maxSigned64) (now : Nat)
    (group topic : String) : Alike given m t (.join now group topic) := by
  have hlast := h.counted.lastMember_le
  obtain ⟨hanswer, hgroups⟩ := h.groups.join h.memory h.listed now (by omega) group topic
  have hkept := t.logsKept_join now group topic
  refine ⟨congrArg (·.map StoreAnswer.member) hanswer.symm,
    h.logs.congr rfl rfl hkept.topics_eq hkept.records_eq hkept.positions_eq, hgroups, ?_⟩
  have hgiven : (StoreCall.join now group topic).given m given =
      fun id g t => given id g t ∨ id = m.lastMember + 1 ∧ g = group ∧ t = topic := by
    funext id g t
    have hid : (Except.ok (m.join now group topic).1 : Except BrokerError Nat) = .ok id ↔
        id = m.lastMember + 1 := by
      rw [Except.ok.injEq]
      exact eq_comm
    exact propext (or_congr Iff.rfl (and_congr hid Iff.rfl))
  rw [hgiven]
  exact h.listed.join now group topic

theorem heartbeat (h : Agree given count m t) (hcount : (count : Int) < maxSigned64)
    {now : Nat} {group topic : String} {member timeout : Nat}
    (hproper : (StoreCall.heartbeat now group topic member timeout).Proper given m) :
    Alike given m t (.heartbeat now group topic member timeout) := by
  obtain ⟨hmember, hnow, htimeout⟩ := hproper
  have hlast := h.counted.lastMember_le
  obtain ⟨after, hbeat, hkept, hgroups⟩ :=
    h.groups.heartbeat h.memory h.listed hmember (by omega) hnow htimeout
  have hon : (StoreCall.heartbeat now group topic member timeout).on t = after :=
    congrArg Prod.snd hbeat
  have hgroup := MemoryLog.group_setGroup m group topic
    ((m.group group topic).heartbeat now member timeout)
  have htables : after.Orderly := by
    rw [← hon]
    refine GroupStore.orderly_on (.heartbeat now group topic member timeout) t h.tables ?_
    exact h.by_of_proper (Int.le_of_lt hcount) ⟨hmember, hnow, htimeout⟩
  have hmemory : (m.setGroup group topic
      ((m.group group topic).heartbeat now member timeout)).Orderly :=
    h.memory.setGroup (Group.ascending_heartbeat (h.memory group topic) now member timeout)
      group topic
  have htold : after.membership group topic =
      ((m.group group topic).heartbeat now member timeout).membership := by
    have hsame := hgroup group topic
    rw [if_pos ⟨rfl, rfl⟩] at hsame
    have hgeneration : ((m.group group topic).heartbeat now member timeout).generation ≤
        maxWord64 := by
      have hle : ((m.group group topic).heartbeat now member timeout).generation ≤
          (m.group group topic).generation + 1 := Group.generation_heartbeat_le
      have hbound := h.counted.generation_le group topic
      simp only [maxSigned64] at hcount
      simp only [maxWord64]
      omega
    rw [← hsame] at hgeneration ⊢
    exact hgroups.membership_eq hmemory htables hgeneration
  refine ⟨?_, ?_, ?_, h.listed.replace hgroup rfl fun id seen hmem => ?_⟩
  · have hanswer : (StoreM.on (LogStore.heartbeat now group topic member timeout) t).1 =
        .ok (after.membership group topic) := congrArg Prod.fst hbeat
    show Except.ok _ = Except.map _ _
    rw [hanswer, htold]
    rfl
  · rw [hon]
    exact h.logs.congr rfl rfl hkept.topics_eq hkept.records_eq hkept.positions_eq
  · rw [hon]
    exact hgroups
  · rcases (Group.mem_members_heartbeat (h.memory group topic)).mp hmem with
      ⟨rfl, -⟩ | ⟨-, hold, -⟩
    · exact hmember
    · exact h.listed.given_of_mem hold

theorem leave (h : Agree given count m t) (hcount : (count : Int) < maxSigned64)
    {group topic : String} {member : Nat} (hmember : given member group topic) :
    Alike given m t (.leave group topic member) := by
  have hlast := h.counted.lastMember_le
  have hgroup := m.group_leave group topic member
  have hkept := t.logsKept_leave group topic member
  obtain ⟨groups, hon⟩ := m.leave_keeps group topic member
  refine ⟨rfl, ?_, ?_, ?_⟩
  · rw [hon]
    exact h.logs.congr rfl rfl hkept.topics_eq hkept.records_eq hkept.positions_eq
  · exact h.groups.leave h.listed hmember (by omega) hgroup (by rw [hon])
  · exact h.listed.replace hgroup (by rw [hon])
      fun id seen hmem => h.listed.given_of_mem (Group.mem_members_leave.mp hmem).2

/-- Whatever a broker calls, both tell the same and keep the same. -/
theorem alike (h : Agree given count m t) (hcount : (count : Int) < maxSigned64) (call : StoreCall)
    (hproper : call.Proper given m) : Alike given m t call := by
  cases call with
  | createTopic topic n => exact h.createTopic topic n
  | partitions topic =>
    exact ⟨congrArg (fun n => Except.ok (StoreAnswer.partitions n)) (h.logs.partitions_eq topic).symm,
      h.logs, h.groups, h.listed⟩
  | append topic p key value => exact h.append topic p key value
  | read topic p start limit =>
    obtain ⟨hlimit, n, hn, hp⟩ := hproper
    have hpartitions : t.topics.lookup topic = some n :=
      (h.logs.partitions_eq topic).trans (Except.ok.inj hn)
    have hlength := h.counted.length_le topic p
    have hread := h.logs.read_eq h.tables.sound hpartitions hp start hlimit (by omega)
    exact ⟨congrArg (·.map StoreAnswer.records) hread, h.logs, h.groups, h.listed⟩
  | committed group topic p =>
    exact ⟨congrArg (fun n => Except.ok (StoreAnswer.position n))
      (h.logs.position_eq group topic p).symm, h.logs, h.groups, h.listed⟩
  | commit group topic p next =>
    obtain ⟨hgroups, hlisted⟩ : SameGroups (m.commit group topic p next)
        (t.commit group topic p next) ∧ Listed given (m.commit group topic p next) :=
      h.groups_kept ⟨rfl, rfl⟩ ⟨rfl, rfl, rfl⟩
    exact ⟨rfl, h.logs.commit group topic p next, hgroups, hlisted⟩
  | join now group topic => exact h.join hcount now group topic
  | heartbeat now group topic member timeout => exact h.heartbeat hcount hproper
  | leave group topic member => exact h.leave hcount hproper

/-- A call is answered alike, and the stores keep the same behind it. -/
theorem step (h : Agree given count m t) (hcount : (count : Int) < maxSigned64) (call : StoreCall)
    (hproper : call.Proper given m) : call.answer m = call.answer t ∧
      Agree (call.given m given) (count + 1) (call.on m) (call.on t) := by
  have halike := h.alike hcount call hproper
  have hany : call.By fun _ => True := by cases call <;> trivial
  exact ⟨halike.answer_eq, halike.logs, halike.groups, halike.listed,
    GroupStore.orderly_on call m h.memory hany,
    GroupStore.orderly_on call t h.tables (h.by_of_proper (Int.le_of_lt hcount) hproper),
    h.counted.on call⟩

/-- All calls are answered alike. -/
theorem answers_eq (h : Agree given count m t) (calls : List StoreCall)
    (hproper : Proper given calls m) (hcount : ((count + calls.length : Nat) : Int) ≤ maxSigned64) :
    answers calls m = answers calls t := by
  induction calls generalizing given count m t with
  | nil => rfl
  | cons call rest ih =>
    rw [List.length_cons] at hcount
    obtain ⟨hanswer, hagree⟩ := h.step (by omega) call hproper.1
    have hrest := ih hagree hproper.2 (by rw [Nat.add_right_comm, Nat.add_assoc]; exact hcount)
    rw [answers, answers, hanswer, hrest]

end Agree

/-- Whichever of the two stores a broker is given, with nothing in it, it is told the same on every
call. The clock may be any that fits into a word; there cannot be more calls than member numbers. -/
theorem answers_memory_eq_tables (calls : List StoreCall)
    (hproper : Proper (fun _ _ _ => False) calls MemoryLog.empty)
    (hlength : (calls.length : Int) ≤ maxSigned64) :
    answers calls MemoryLog.empty = answers calls TableLog.empty := by
  refine Agree.empty.answers_eq calls hproper ?_
  rw [Nat.zero_add]
  exact hlength

/-- Two members of a group, one of which is late, is removed and comes back, and some calls that
fail. -/
def latecomer : List StoreCall :=
  [.createTopic "jobs" 2, .createTopic "jobs" 7, .append "jobs" 1 "a" ⟨#[1]⟩,
    .append "jobs" 1 "b" ⟨#[2]⟩, .append "jobs" 2 "c" ⟨#[3]⟩, .append "mail" 0 "d" ⟨#[4]⟩,
    .read "jobs" 1 (-3) maxWord64, .read "jobs" 1 1 5, .join 0 "crew" "jobs", .join 5 "crew" "jobs",
    .commit "crew" "jobs" 1 2, .commit "crew" "jobs" 1 (-1), .committed "crew" "jobs" 1,
    .heartbeat 20 "crew" "jobs" 1 10, .heartbeat 21 "crew" "jobs" 2 10, .leave "crew" "jobs" 1,
    .heartbeat 9 "crew" "jobs" 1 10]

theorem answers_latecomer : Proper (fun _ _ _ => False) latecomer MemoryLog.empty ∧
    answers latecomer MemoryLog.empty = answers latecomer TableLog.empty := by
  have hproper : Proper (fun _ _ _ => False) latecomer MemoryLog.empty := by
    have hfirst : ∀ before : Nat → String → String → Prop, before 1 "crew" "jobs" ∨
        (Except.ok 1 : Except BrokerError Nat) = .ok 1 ∧ "crew" = "crew" ∧ "jobs" = "jobs" :=
      fun _ => .inr ⟨rfl, rfl, rfl⟩
    refine ⟨trivial, trivial, trivial, trivial, trivial, trivial, ⟨by decide, 2, rfl, by decide⟩,
      ⟨by decide, 2, rfl, by decide⟩, trivial, trivial, trivial, trivial, trivial, ⟨?_, by decide⟩,
      ⟨?_, by decide⟩, ?_, ⟨?_, by decide⟩, trivial⟩
    · exact .inl (hfirst _)
    · exact .inr ⟨rfl, rfl, rfl⟩
    · exact .inl (hfirst _)
    · exact .inl (hfirst _)
  exact ⟨hproper, answers_memory_eq_tables latecomer hproper (by decide)⟩

end WorkQueue
