import WorkQueue.Cluster.Basic
import WorkQueue.Proofs.Store.Dependable

/-!
# How long a member may be silent

A heartbeat removes from the group whoever has been silent for longer than the session timeout, and
nobody else; least of all the one who sends it. In memory this holds of every timeout. In tables the
cutoff is computed in signed words: a timeout that reaches back beyond the smallest of them wraps
around into the future, and everybody is late, the sender included.

A broker keeps its session timeout in a word as well, so a span of more milliseconds is cut down
before any store sees it.

## Main definitions

* `MemoryLog.LastHeard`, `TableLog.LastHeard`: when a member was heard of
* `Membership.Spares`: a heartbeat has removed who was silent for too long, and nobody else

## Main statements

* `MemoryLog.spares_heartbeat`: in memory every heartbeat does so
* `TableLog.spares_heartbeat_iff`: in tables it does if the cutoff is a word
* `Broker.heartbeat_spares`: the timeouts that can be set at a broker
-/

namespace WorkQueue

/-- What a heartbeat of `member` is to tell of a group: the sender belongs to it, and of the others
those who have been heard of within the timeout. -/
structure Membership.Spares (m : Membership) (lastHeard : Nat → Int → Prop)
    (now member timeout : Nat) : Prop where
  sender : member ∈ m.members
  other : ∀ id, id ≠ member →
    (id ∈ m.members ↔ ∃ time, lastHeard id time ∧ (now : Int) - time ≤ timeout)

/-- A longer timeout removes nobody whom a shorter one keeps. -/
theorem Membership.Spares.mono {m m' : Membership} {lastHeard : Nat → Int → Prop}
    {now member timeout timeout' : Nat} (h : m.Spares lastHeard now member timeout)
    (h' : m'.Spares lastHeard now member timeout') (hle : timeout ≤ timeout') :
    ∀ id ∈ m.members, id ∈ m'.members := by
  intro id hid
  by_cases hsender : id = member
  · rw [hsender]
    exact h'.sender
  · obtain ⟨time, hheard, hintime⟩ := (h.other id hsender).mp hid
    exact (h'.other id hsender).mpr ⟨time, hheard, by omega⟩

/-! ## In memory -/

namespace MemoryLog

/-- Member `id` of a group was last heard of at `time`. -/
def LastHeard (s : MemoryLog) (group topic : String) (id : Nat) (time : Int) : Prop :=
  ∃ seen : Nat, (id, seen) ∈ (s.group group topic).members ∧ time = seen

/-- Every timeout is kept to the letter. -/
theorem spares_heartbeat (s : MemoryLog) (group topic : String) (now member timeout : Nat) :
    ((s.group group topic).heartbeat now member timeout).membership.Spares
      (s.LastHeard group topic) now member timeout := by
  refine ⟨Group.mem_touch.mpr (.inl rfl), fun id hother => ?_⟩
  show id ∈ (Group.touch member now ((s.group group topic).survivors now member timeout)).map (·.1) ↔ _
  rw [Group.mem_touch, or_iff_right hother, List.mem_map]
  constructor
  · rintro ⟨⟨_, seen⟩, hstays, rfl⟩
    obtain ⟨hmem, hfresh⟩ := List.mem_filter.mp hstays
    have hle : now - seen ≤ timeout := by simpa [hother] using hfresh
    exact ⟨seen, ⟨seen, hmem, rfl⟩, by omega⟩
  · rintro ⟨_, ⟨seen, hmem, rfl⟩, hintime⟩
    have hle : now - seen ≤ timeout := by omega
    exact ⟨(id, seen), List.mem_filter.mpr ⟨hmem, by simp [hle]⟩, rfl⟩

end MemoryLog

/-! ## In tables -/

namespace TableLog

/-- Member `id` of a group was last heard of at `time`. -/
def LastHeard (s : TableLog) (group topic : String) (id : Nat) (time : Int) : Prop :=
  ∃ r ∈ s.members, inGroup group topic r = true ∧ ofWord r.id = id ∧ r.lastSeen = time

/-- Member numbers are kept in signed words. -/
def Worded (s : TableLog) : Prop :=
  ∀ r ∈ s.members, minSigned64 ≤ r.id ∧ r.id ≤ maxSigned64

/-- The time before which a heartbeat finds members late. -/
def cutoff (now timeout : Nat) : Int := toWord (now - toWord timeout)

variable {s fresh : TableLog} {group topic : String} {now member timeout : Nat} {m : Membership}

/-- A number read back from its word. -/
theorem ofWord_toWord (h : member ≤ maxWord64) : ofWord (toWord member) = member := by
  simp only [ofWord, toWord, Int.bmod, maxWord64] at h ⊢
  omega

/-- A word read as a number and stored again. -/
theorem toWord_ofWord {n : Int} (low : minSigned64 ≤ n) (high : n ≤ maxSigned64) :
    toWord (ofWord n) = n := by
  simp only [ofWord, toWord, Int.bmod, minSigned64, maxSigned64] at low high ⊢
  omega

/-- A word is the remainder in the range of words. -/
theorem toWord_eq_ite (n : Int) : toWord n =
    if n % 18446744073709551616 < 9223372036854775808 then n % 18446744073709551616
    else n % 18446744073709551616 - 18446744073709551616 := rfl

/-- The cutoff is the timeout ago if that is a word. -/
theorem cutoff_eq_sub (hnow : (now : Int) ≤ maxSigned64) (htimeout : timeout ≤ maxWord64)
    (hfits : minSigned64 ≤ (now : Int) - timeout) : cutoff now timeout = (now : Int) - timeout := by
  rw [cutoff, toWord_eq_ite, toWord_eq_ite]
  simp only [maxSigned64, minSigned64, maxWord64] at hnow htimeout hfits
  omega

/-- Otherwise it lies in the future. -/
theorem lt_cutoff (hnow : (now : Int) ≤ maxSigned64) (htimeout : timeout ≤ maxWord64)
    (hover : (now : Int) - timeout < minSigned64) : (now : Int) < cutoff now timeout := by
  rw [cutoff, toWord_eq_ite, toWord_eq_ite]
  simp only [maxSigned64, minSigned64, maxWord64] at hnow htimeout hover
  omega

/-- A heartbeat fails because the number of its member is taken, and for no other reason. -/
theorem heartbeat_ne_closed (s : TableLog) (now : Nat) (group topic : String) (member timeout : Nat) :
    ((LogStore.heartbeat now group topic member timeout).on s).1 ≠ .error .closed := by
  show (s.heartbeat now group topic member timeout).1 ≠ _
  unfold heartbeat
  split
  · next e hfailed =>
    unfold refresh at hfailed
    split at hfailed
    · cases hfailed
    · unfold insertMember at hfailed
      split at hfailed
      · obtain rfl : memberTaken = e := Except.error.inj hfailed
        exact nofun
      · cases hfailed
  · exact nofun

/-- The members told are those who, behind the refresh, were not last heard of before the cutoff. -/
theorem mem_of_heartbeat (h : (s.heartbeat now group topic member timeout).1 = .ok m) :
    ∃ rejoined fresh, s.refresh now group topic (toWord member) = .ok (rejoined, fresh) ∧
      ∀ id, id ∈ m.members ↔ ∃ time, fresh.LastHeard group topic id time ∧ cutoff now timeout ≤ time := by
  unfold heartbeat at h
  split at h
  · cases h
  · next rejoined fresh hfresh =>
    refine ⟨rejoined, fresh, hfresh, fun id => ?_⟩
    -- whether somebody is removed or not, those who are not late are told of
    let late := stale group topic (cutoff now timeout)
    have hkept : m.members = (rosterOf { fresh with
        members := fresh.members.filter fun r => !late r } group topic).members := by
      obtain rfl := Except.ok.inj h
      split
      · rfl
      · rfl
    rw [hkept, mem_rosterOf]
    constructor
    · rintro ⟨n, hn, rfl⟩
      obtain ⟨r, hr, hin, rfl⟩ := mem_idsOf.mp hn
      obtain ⟨hmem, hstays⟩ := List.mem_filter.mp hr
      rw [Bool.not_eq_true', ← Bool.not_eq_true, stale_iff] at hstays
      exact ⟨r.lastSeen, ⟨r, hmem, hin, rfl, rfl⟩, by simpa [hin] using hstays⟩
    · rintro ⟨_, ⟨r, hmem, hin, rfl, rfl⟩, hle⟩
      refine ⟨r.id, mem_idsOf.mpr ⟨r, List.mem_filter.mpr ⟨hmem, ?_⟩, hin, rfl⟩, rfl⟩
      rw [Bool.not_eq_true', ← Bool.not_eq_true, stale_iff]
      omega

/-- A refresh rewrites the row of the member, or adds one under a number that is free. -/
theorem members_refresh {id : Int} {rejoined : Bool}
    (h : s.refresh now group topic id = .ok (rejoined, fresh)) :
    (fresh.members = s.members.map (refreshed now group topic id) ∧
        ∃ r ∈ s.members, r.id = id ∧ inGroup group topic r = true) ∨
      fresh.members = s.members ++ [⟨id, group, topic, now⟩] ∧ ∀ r ∈ s.members, r.id ≠ id := by
  unfold refresh at h
  split at h
  · next hany =>
    obtain ⟨-, rfl⟩ := Prod.mk.inj (Except.ok.inj h)
    obtain ⟨r, hr, hrow⟩ := List.any_eq_true.mp hany
    rw [Bool.and_eq_true, beq_iff_eq] at hrow
    exact .inl ⟨rfl, r, hr, hrow⟩
  · cases hinsert : s.insertMember ⟨id, group, topic, now⟩ with
    | error e => simp [hinsert, bind, Except.bind] at h
    | ok inserted =>
      simp only [hinsert, bind, Except.bind, pure, Except.pure] at h
      obtain ⟨-, rfl⟩ := Prod.mk.inj (Except.ok.inj h)
      obtain ⟨rfl, hfree⟩ := insertMember_eq_ok hinsert
      exact .inr ⟨rfl, hfree⟩

/-- A refresh has heard of its member just now. -/
theorem lastHeard_refresh_self {rejoined : Bool} (hmember : member ≤ maxWord64)
    (h : s.refresh now group topic (toWord member) = .ok (rejoined, fresh)) :
    fresh.LastHeard group topic member now := by
  have hnumber := ofWord_toWord hmember
  rcases members_refresh h with ⟨hmembers, r, hr, hid, hin⟩ | ⟨hmembers, -⟩
  · refine ⟨refreshed now group topic (toWord member) r, ?_, ?_, ?_, ?_⟩
    · rw [hmembers]
      exact List.mem_map_of_mem hr
    · rw [inGroup_refreshed]
      exact hin
    · rw [id_refreshed, hid]
      exact hnumber
    · simp [refreshed, hid, hin]
  · refine ⟨⟨toWord member, group, topic, now⟩, ?_, inGroup_iff.mpr ⟨rfl, rfl⟩, ?_, rfl⟩
    · rw [hmembers]
      exact List.mem_append_right _ (List.mem_singleton_self _)
    · dsimp only
      exact hnumber

/-- Of its member a refresh keeps no other time. -/
theorem eq_now_of_lastHeard_refresh {rejoined : Bool} (hs : s.Worded) {time : Int}
    (h : s.refresh now group topic (toWord member) = .ok (rejoined, fresh))
    (hheard : fresh.LastHeard group topic member time) : time = now := by
  obtain ⟨r, hr, hin, hid, rfl⟩ := hheard
  rcases members_refresh h with ⟨hmembers, -⟩ | ⟨hmembers, hfree⟩
  · rw [hmembers] at hr
    obtain ⟨old, hold, rfl⟩ := List.mem_map.mp hr
    rw [id_refreshed] at hid
    rw [inGroup_refreshed] at hin
    obtain ⟨low, high⟩ := hs old hold
    have hword : old.id = toWord member := by rw [← hid, toWord_ofWord low high]
    simp [refreshed, hword, hin]
  · rw [hmembers] at hr
    rcases List.mem_append.mp hr with hold | hnew
    · obtain ⟨low, high⟩ := hs r hold
      exact absurd (by rw [← hid, toWord_ofWord low high]) (hfree r hold)
    · rw [List.mem_singleton.mp hnew]

/-- Of the others a refresh changes nothing. -/
theorem lastHeard_refresh_iff {rejoined : Bool} (hmember : member ≤ maxWord64)
    (h : s.refresh now group topic (toWord member) = .ok (rejoined, fresh)) {id : Nat}
    (hother : id ≠ member) (time : Int) :
    fresh.LastHeard group topic id time ↔ s.LastHeard group topic id time := by
  -- a row with the number of the member is not a row of the other one
  have hne : ∀ r : MemberRow, ofWord r.id = id → r.id ≠ toWord member := by
    rintro r hid heq
    rw [heq, ofWord_toWord hmember] at hid
    exact hother hid.symm
  unfold LastHeard
  rcases members_refresh h with ⟨hmembers, -⟩ | ⟨hmembers, -⟩
  · have hsame : ∀ r : MemberRow, ofWord r.id = id →
        refreshed now group topic (toWord member) r = r := by
      intro r hid
      simp [refreshed, hne r hid]
    rw [hmembers]
    constructor
    · rintro ⟨r, hr, hin, hid, hseen⟩
      obtain ⟨old, hold, rfl⟩ := List.mem_map.mp hr
      have hid' := hid
      rw [id_refreshed] at hid'
      rw [hsame old hid'] at hin hid hseen
      exact ⟨old, hold, hin, hid, hseen⟩
    · rintro ⟨r, hr, hin, hid, hseen⟩
      exact ⟨r, List.mem_map.mpr ⟨r, hr, hsame r hid⟩, hin, hid, hseen⟩
  · rw [hmembers]
    constructor
    · rintro ⟨r, hr, hin, hid, hseen⟩
      rcases List.mem_append.mp hr with hold | hnew
      · exact ⟨r, hold, hin, hid, hseen⟩
      · have hrow := hne r hid
        rw [List.mem_singleton.mp hnew] at hrow
        exact absurd (by dsimp only) hrow
    · rintro ⟨r, hr, hin, hid, hseen⟩
      exact ⟨r, List.mem_append_left _ hr, hin, hid, hseen⟩

/-- A heartbeat in tables spares whom it should if the cutoff is a word. Otherwise not even its own
sender is left. -/
theorem spares_heartbeat (hnow : (now : Int) ≤ maxSigned64) (htimeout : timeout ≤ maxWord64)
    (hmember : member ≤ maxWord64)
    (h : (s.heartbeat now group topic member timeout).1 = .ok m) :
    (minSigned64 ≤ (now : Int) - timeout → m.Spares (s.LastHeard group topic) now member timeout) ∧
      ((now : Int) - timeout < minSigned64 → s.Worded → member ∉ m.members) := by
  obtain ⟨rejoined, fresh, hfresh, hmem⟩ := mem_of_heartbeat h
  constructor
  · intro hfits
    have hcutoff := cutoff_eq_sub hnow htimeout hfits
    refine ⟨(hmem member).mpr ⟨now, lastHeard_refresh_self hmember hfresh, by omega⟩, fun id hother => ?_⟩
    rw [hmem id]
    refine exists_congr fun time => ?_
    rw [lastHeard_refresh_iff hmember hfresh hother, hcutoff]
    exact and_congr_right fun _ => by omega
  · intro hover hs hsender
    obtain ⟨time, hheard, hle⟩ := (hmem member).mp hsender
    have hlt := lt_cutoff hnow htimeout hover
    rw [eq_now_of_lastHeard_refresh hs hfresh hheard] at hle
    omega

end TableLog

/-! ## Consumers -/

/-- A consumer is told to be closed if it is, if its heartbeat fails in this way, or if its heartbeat
tells of a group that it does not belong to. -/
theorem Consumer.assignment_eq_closed_iff {σ : Type} [LogStore σ] (k : Consumer) (now timeout : Nat)
    (s : σ) : ((k.assignment now timeout).on s).1 = .error .closed ↔
      k.closed = true ∨
        ((LogStore.heartbeat now k.group k.topic k.id timeout).on s).1 = .error .closed ∨
        ∃ m, ((LogStore.heartbeat now k.group k.topic k.id timeout).on s).1 = .ok m ∧
          k.id ∉ m.members := by
  have hensures : Ensures (k.assignment now timeout) s fun result _ => result = .error .closed ↔
      k.closed = true ∨
        ((LogStore.heartbeat now k.group k.topic k.id timeout).on s).1 = .error .closed ∨
        ∃ m, ((LogStore.heartbeat now k.group k.topic k.id timeout).on s).1 = .ok m ∧
          k.id ∉ m.members := by
    unfold assignment
    cases hclosed : k.closed with
    | true => exact ⟨fun _ => .inl rfl, fun _ => rfl⟩
    | false =>
      rw [if_neg Bool.false_ne_true, ensures_bind, ensures_on]
      cases ((LogStore.heartbeat now k.group k.topic k.id timeout).on s).1 with
      | error e =>
        dsimp only
        simp
      | ok m =>
        dsimp only
        cases hindex : m.members.idxOf? k.id with
        | none =>
          have hnot : k.id ∉ m.members := List.idxOf?_eq_none_iff.mp hindex
          exact ⟨fun _ => .inr (.inr ⟨m, rfl, hnot⟩), fun _ => rfl⟩
        | some index =>
          have hmem : k.id ∈ m.members := by
            rw [← List.isSome_idxOf?, hindex]
            rfl
          refine ⟨nofun, ?_⟩
          rintro (htrue | hfailed | ⟨m', hm', hnot⟩)
          · cases htrue
          · cases hfailed
          · obtain rfl := Except.ok.inj hm'
            exact absurd hmem hnot
  exact hensures

/-! ## Timeouts of brokers -/

namespace Broker

/-- A broker keeps a session timeout of any length up to the largest word as it is. -/
theorem sessionTimeout_eq_iff (b : Broker) (span : Duration) :
    (b.withSessionTimeout span).sessionTimeout = span.toMillis ↔ span.toMillis ≤ maxWord64 := by
  show span.toMillis % 18446744073709551616 = span.toMillis ↔ span.toMillis ≤ 18446744073709551615
  omega

theorem sessionTimeout_le (b : Broker) (span : Duration) :
    (b.withSessionTimeout span).sessionTimeout ≤ maxWord64 := by
  show span.toMillis % 18446744073709551616 ≤ 18446744073709551615
  omega

/-- Whatever session timeout a broker is given, it is the one that heartbeats go by as long as its
milliseconds are a word. In memory a heartbeat then tells of its sender and of all others who have not
been silent for longer; a consumer is told to be closed only if it is; and nobody is removed by a
longer timeout who is kept by a shorter one. In tables the same holds if and only if the time that
lies a timeout back is a signed word: if it is not, then not even the sender is told of. -/
theorem heartbeat_spares (b : Broker) (span : Duration) {timeout now : Nat}
    (htimeout : (b.withSessionTimeout span).sessionTimeout = timeout)
    (hnow : (now : Int) ≤ maxSigned64) :
    (timeout = span.toMillis ↔ span.toMillis ≤ maxWord64) ∧
    (∀ (s : MemoryLog) (group topic : String) (member : Nat), ∃ m,
      ((LogStore.heartbeat now group topic member timeout).on s).1 = .ok m ∧
        m.Spares (s.LastHeard group topic) now member timeout ∧
        ∀ longer, timeout ≤ longer → ∃ m',
          ((LogStore.heartbeat now group topic member longer).on s).1 = .ok m' ∧
            ∀ id ∈ m.members, id ∈ m'.members) ∧
    (∀ (s : MemoryLog) (k : Consumer),
      ((k.assignment now timeout).on s).1 = .error .closed → k.closed = true) ∧
    (∀ s : TableLog, s.Worded → ∀ (group topic : String) (member : Nat) (m : Membership),
      member ≤ maxWord64 → ((LogStore.heartbeat now group topic member timeout).on s).1 = .ok m →
        (m.Spares (s.LastHeard group topic) now member timeout ↔
          minSigned64 ≤ (now : Int) - timeout) ∧
        (member ∈ m.members ↔ minSigned64 ≤ (now : Int) - timeout) ∧
        ∀ (longer : Nat) (m' : Membership), timeout ≤ longer → minSigned64 ≤ (now : Int) - longer →
          ((LogStore.heartbeat now group topic member longer).on s).1 = .ok m' →
            ∀ id ∈ m.members, id ∈ m'.members) ∧
    (∀ (s : TableLog) (k : Consumer), k.id ≤ maxWord64 → minSigned64 ≤ (now : Int) - timeout →
      ((k.assignment now timeout).on s).1 = .error .closed → k.closed = true) := by
  have hword : timeout ≤ maxWord64 := htimeout ▸ b.sessionTimeout_le span
  refine ⟨?_, ?memory, ?memoryConsumer, ?tables, ?tablesConsumer⟩
  · rw [← htimeout]
    exact b.sessionTimeout_eq_iff span
  case memory =>
    intro s group topic member
    have hspares := s.spares_heartbeat group topic now member timeout
    refine ⟨_, rfl, hspares, fun longer hle => ⟨_, rfl, ?_⟩⟩
    exact hspares.mono (s.spares_heartbeat group topic now member longer) hle
  case memoryConsumer =>
    intro s k hk
    rcases (k.assignment_eq_closed_iff now timeout s).mp hk with hclosed | hfailed | ⟨m, hm, hnot⟩
    · exact hclosed
    · cases hfailed
    · obtain rfl := Except.ok.inj hm
      exact absurd (s.spares_heartbeat k.group k.topic now k.id timeout).sender hnot
  case tables =>
    intro s hs group topic member m hmember hm
    obtain ⟨hspares, hlost⟩ := TableLog.spares_heartbeat hnow hword hmember hm
    have hfits : member ∈ m.members → minSigned64 ≤ (now : Int) - timeout :=
      fun hsender => Int.not_lt.mp fun hover => hlost hover hs hsender
    refine ⟨⟨fun h => hfits h.sender, hspares⟩, ⟨hfits, fun h => (hspares h).sender⟩, ?_⟩
    intro longer m' hle hlonger hm'
    -- the shorter timeout reaches back less far
    have hfits' : minSigned64 ≤ (now : Int) - timeout := by omega
    have hword' : longer ≤ maxWord64 := by
      simp only [minSigned64, maxSigned64, maxWord64] at hlonger hnow ⊢
      omega
    exact (hspares hfits').mono
      ((TableLog.spares_heartbeat hnow hword' hmember hm').1 hlonger) hle
  case tablesConsumer =>
    intro s k hid hfits hk
    rcases (k.assignment_eq_closed_iff now timeout s).mp hk with hclosed | hfailed | ⟨m, hm, hnot⟩
    · exact hclosed
    · exact absurd hfailed (TableLog.heartbeat_ne_closed s now k.group k.topic k.id timeout)
    · exact absurd ((TableLog.spares_heartbeat hnow hword hid hm).1 hfits).sender hnot

/-- What a call has returned can be computed. -/
theorem eq_ok_of_toOption {ε α : Type} {result : Except ε α} {a : α}
    (h : result.toOption = some a) : result = .ok a := by
  cases result with
  | error e => cases h
  | ok b => exact congrArg _ (Option.some.inj h)

/-- Two members, the first of whom joined half a second before the second. -/
def neighbors : TableLog :=
  ((LogStore.join 500 "g" "t").on ((LogStore.join 0 "g" "t").on TableLog.empty).2).2

/-- The second one sends a heartbeat with a timeout of one second, by which the first one is late. -/
theorem heartbeat_spares_late : ∃ m : Membership,
    ((LogStore.heartbeat 1200 "g" "t" 2 1000).on neighbors).1 = .ok m ∧
      m.Spares (neighbors.LastHeard "g" "t") 1200 2 1000 ∧ m.members = [2] := by
  have htells : ((LogStore.heartbeat 1200 "g" "t" 2 1000).on neighbors).1 = .ok ⟨3, [2]⟩ :=
    eq_ok_of_toOption (by decide +kernel)
  have hworded : neighbors.Worded := by
    unfold TableLog.Worded
    decide +kernel
  have htimeout : (({} : Broker).withSessionTimeout (.ofMillis 1000)).sessionTimeout = 1000 := by
    decide +kernel
  have hnow : ((1200 : Nat) : Int) ≤ maxSigned64 := by decide
  obtain ⟨-, -, -, htables, -⟩ := heartbeat_spares {} (.ofMillis 1000) htimeout hnow
  obtain ⟨hiff, -⟩ := htables neighbors hworded "g" "t" 2 _ (by decide) htells
  exact ⟨_, htells, hiff.mpr (by decide), rfl⟩

/-- With the longest timeout that a broker keeps, a heartbeat in tables leaves nobody, although both
members have been heard of in time. The consumer that has sent it is told to be closed and is not. -/
theorem heartbeat_spares_nobody :
    let timeout := (({} : Broker).withSessionTimeout (.ofMillis maxWord64)).sessionTimeout
    let k : Consumer := { id := 2, broker := 0, group := "g", topic := "t", partitions := 1 }
    timeout = maxWord64 ∧
      ((LogStore.heartbeat 1200 k.group k.topic k.id timeout).on neighbors).1 = .ok ⟨3, []⟩ ∧
      k.closed = false ∧ ((k.assignment 1200 timeout).on neighbors).1 = .error .closed := by
  intro timeout k
  have htells : ((LogStore.heartbeat 1200 k.group k.topic k.id timeout).on neighbors).1 =
      .ok ⟨3, []⟩ := eq_ok_of_toOption (by decide +kernel)
  refine ⟨by decide +kernel, htells, rfl, ?_⟩
  rw [Consumer.assignment_eq_closed_iff]
  exact .inr (.inr ⟨_, htells, List.not_mem_nil⟩)

end Broker

end WorkQueue
