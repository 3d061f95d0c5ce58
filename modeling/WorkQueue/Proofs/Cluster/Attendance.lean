import WorkQueue.Proofs.Cluster.Enrolment
import WorkQueue.Proofs.Cluster.Pace
import WorkQueue.Proofs.Store.Patient

/-!
# Consumers that are in time

No broker of a cluster waits less than some time for a heartbeat. A consumer whose last heartbeat
does not lie that long back stays a member of its group, whatever consumers do at any of the brokers,
and each turn of its own makes the time of its last heartbeat the present.

## Main definitions

* `Cluster.Patient`: no broker waits less than `limit`
* `Seat`, `Cluster.Attends`: a consumer that was heard of at some time

## Main statements

* `Consumer.ensures_heard`: a turn of a member is a heartbeat, and does not tell it to leave
* `Cluster.Attends.on`, `Cluster.Acted.attends`: nobody else makes a consumer late that is in time
* `Cluster.Attends.poll`, `Cluster.attends_subscribe`: its own polls, and joining
-/

namespace WorkQueue

open GroupStore DependableStore PatientStore

variable {σ : Type} [LogStore σ] [PatientStore σ]

/-! ## Turns of a member -/

namespace Consumer

variable {k : Consumer} {s : σ} {now timeout : Nat}

/-- A heartbeat of a member tells it what it is assigned. -/
theorem ensures_assignment_heard (ho : Orderly s) (hid : Valid σ k.id) (hopen : k.closed = false)
    (hmember : k.id ∈ (roster s k.group k.topic).members) (htimely : Timely σ now timeout) :
    Ensures (k.assignment now timeout) s fun result s' =>
      (∃ found, result = .ok found) ∧ Orderly s' ∧ Heard s' k.group k.topic k.id now := by
  have horderly : Ensures (LogStore.heartbeat now k.group k.topic k.id timeout : StoreM σ Membership)
      s fun _ s' => Orderly s' :=
    orderly_on (.heartbeat now k.group k.topic k.id timeout) s ho hid
  unfold assignment
  rw [hopen, if_neg (by simp), ensures_bind]
  refine ((((heartbeat_member now k.group k.topic k.id timeout s ho hmember htimely).and
    (heartbeat_tells now k.group k.topic k.id timeout s ho hid)).and
    (heartbeat_heard now k.group k.topic k.id timeout s ho hmember htimely)).and horderly).mono ?_
  rintro result s' ⟨⟨⟨⟨⟨m, rfl⟩, hkept⟩, htells, -⟩, hheard⟩, ho'⟩
  have hmem : k.id ∈ m.members := by
    rw [(htells m rfl).1]
    exact hkept
  dsimp only
  cases hindex : m.members.idxOf? k.id with
  | none => exact absurd hmem (List.idxOf?_eq_none_iff.mp hindex)
  | some index => exact ⟨⟨_, rfl⟩, ho', hheard⟩

/-- A turn of a member is a heartbeat. It may fail behind that, but not because the member has
left. -/
theorem ensures_heard (ho : Orderly s) (hid : Valid σ k.id) (hopen : k.closed = false)
    (hmember : k.id ∈ (roster s k.group k.topic).members) (htimely : Timely σ now timeout)
    (f : Fetch) : Ensures (k.turn now timeout) (f, s) fun result x =>
      result ≠ .error .closed ∧ Heard x.2 k.group k.topic k.id now := by
  have rule : k.TurnRule now timeout
      (fun _ (s' : σ) => Orderly s' ∧ k.id ∈ (roster s' k.group k.topic).members)
      (fun _ _ _ (s' : σ) => Orderly s' ∧ Heard s' k.group k.topic k.id now)
      (fun _ (s' : σ) => Orderly s' ∧ Heard s' k.group k.topic k.id now)
      (fun result _ (s' : σ) => result ≠ .error .closed ∧ Heard s' k.group k.topic k.id now) := by
    constructor
    case told =>
      rintro f s₁ ⟨ho₁, hmember₁⟩
      apply (ensures_assignment_heard ho₁ hid hopen hmember₁ htimely).mono
      rintro result s' ⟨⟨⟨generation, assigned⟩, rfl⟩, ho', hheard⟩
      dsimp only
      split
      · exact ⟨ho', hheard⟩
      · exact ⟨ho', hheard⟩
    case opened =>
      rintro _ _ f s₁ p ⟨ho₁, hheard⟩ _ _
      -- asking for a position changes nothing that a store is asked about members
      have hkept : Ensures (LogStore.committed k.group k.topic p : StoreM σ (Option Int)) s₁
          fun _ s' => Orderly s' ∧ Heard s' k.group k.topic k.id now :=
        ⟨orderly_on (.committed k.group k.topic p) s₁ ho₁ trivial,
          heard_on (.committed k.group k.topic p) ho₁ trivial trivial hheard⟩
      refine (hkept.and (committed_ne_closed k.group k.topic p s₁)).mono ?_
      rintro result s' ⟨⟨ho', hheard'⟩, hopen'⟩
      rcases result with e | position
      · exact ⟨fun heq => hopen' (congrArg Except.error (Except.error.inj heq)), hheard'⟩
      · exact ⟨ho', hheard'⟩
    case fetched =>
      rintro f s₁ slot p start ⟨ho₁, hheard⟩ _ _
      have hkept : Ensures (LogStore.read k.topic p start fetchBatch : StoreM σ (List Record)) s₁
          fun _ s' => Orderly s' ∧ Heard s' k.group k.topic k.id now :=
        ⟨orderly_on (.read k.topic p start fetchBatch) s₁ ho₁ trivial,
          heard_on (.read k.topic p start fetchBatch) ho₁ trivial trivial hheard⟩
      refine (hkept.and (read_ne_closed k.topic p start fetchBatch s₁)).mono ?_
      rintro result s' ⟨⟨ho', hheard'⟩, hopen'⟩
      rcases result with e | records
      · exact ⟨fun heq => hopen' (congrArg Except.error (Except.error.inj heq)), hheard'⟩
      · dsimp only
        cases records.getLast? with
        | none => exact ⟨ho', hheard'⟩
        | some last => exact ⟨nofun, hheard'⟩
    case noted => exact fun _ _ _ _ h => h
    case handed => exact fun _ _ _ _ h _ => ⟨nofun, h.2⟩
    case idled => exact fun _ _ h _ => ⟨nofun, h.2⟩
  exact rule.ensures ⟨ho, hmember⟩

end Consumer

/-! ## Clusters -/

/-- A consumer at a place of a cluster: its number, group and topic. -/
structure Seat where
  place : Nat
  id : Nat
  group : String
  topic : String

namespace Cluster

/-- The cluster is in order, no broker waits less than `limit` for a heartbeat, and timers and
memberships go by one clock. -/
structure Patient (limit : Nat) (c : Cluster σ) : Prop where
  agreed : c.Agreed
  timeout (broker : Nat) : limit ≤ (c.broker broker).sessionTimeout
  timely (broker : Nat) : c.Timely broker
  oneClock : c.wall = c.now

/-- The consumer at its seat has not left, and was heard of at `time` or later. -/
def Attends (c : Cluster σ) (seat : Seat) (time : Nat) : Prop :=
  (∃ k, c.consumer? seat.place = some k ∧ k.closed = false ∧ k.group = seat.group ∧
    k.topic = seat.topic ∧ k.id = seat.id) ∧ Heard c.store seat.group seat.topic seat.id time

variable {c c' : Cluster σ} {seat : Seat} {limit time : Nat} {own : Nat → Prop}

theorem Patient.on (h : c.Patient limit) {a : Act} (ha : a.Of own) : (a.on c).Patient limit := by
  have hpace := samePace_on ha c
  constructor
  case agreed => exact h.agreed.on (ha.by _)
  case timeout =>
    intro broker
    rw [hpace.timeout_eq]
    exact h.timeout broker
  case timely =>
    intro broker
    unfold Cluster.Timely
    rw [hpace.wall_eq, hpace.timeout_eq]
    exact h.timely broker
  case oneClock =>
    rw [hpace.wall_eq, hpace.now_eq]
    exact h.oneClock

/-! ## What others do -/

/-- By nothing that happens is a consumer late that is in time, unless it leaves. -/
theorem Patient.bears (h : c.Patient limit) {a : Act} (ha : a.Of own) (hown : ¬ own seat.place)
    (hseat : c.Attends seat time) (htime : c.InTime limit time) (call : StoreCall)
    (hcall : a.MayCall c call) : call.Bears σ seat.group seat.topic seat.id time := by
  obtain ⟨⟨l, hl, -, -, -, hid⟩, -⟩ := hseat
  obtain ⟨hle, hwithin⟩ := htime
  have hwall := h.oneClock
  -- a heartbeat of a consumer goes by the patience of its broker
  have hbeat : ∀ k : Consumer, StoreCall.Bears σ seat.group seat.topic seat.id time
      (.heartbeat c.wall k.group k.topic k.id (c.broker k.broker).sessionTimeout) := by
    intro k
    have hpatient := h.timeout k.broker
    exact ⟨by omega, by omega, h.timely k.broker⟩
  have hjoin : ∀ group topic, StoreCall.Bears σ seat.group seat.topic seat.id time
      (.join c.wall group topic) := by
    intro group topic
    show time ≤ c.wall
    omega
  cases a with
  | subscribe broker group topic =>
    rcases hcall with rfl | ⟨n, rfl⟩ | rfl
    · trivial
    · trivial
    · exact hjoin group topic
  | poll i p =>
    obtain ⟨k, hk, rfl | ⟨p, rfl⟩ | ⟨p, start, rfl⟩⟩ := hcall
    · exact hbeat k
    · trivial
    · trivial
  | commit i offsets =>
    obtain ⟨k, hk, rfl | ⟨p, o, -, rfl⟩⟩ := hcall
    · exact hbeat k
    · trivial
  | close i =>
    obtain ⟨k, hk, rfl⟩ := hcall
    rintro ⟨-, -, hsame⟩
    -- no two consumers have the same number
    have hplace := h.agreed.sound.id_inj i seat.place k l hk hl (hsame.trans hid.symm)
    exact hown (hplace ▸ ha)
  | pass timers memberships => exact ha.elim
  | outside use =>
    cases use with
    | heartbeat | leave => exact ha.elim
    | join group topic =>
      obtain rfl := hcall
      exact hjoin group topic
    | send broker topic key value => rcases hcall with rfl | ⟨n, rfl⟩ | ⟨p, rfl⟩ <;> trivial
    | _ =>
      obtain rfl := hcall
      trivial

/-- Whatever happens, a consumer that is in time is still heard of, unless it leaves. -/
theorem Attends.on (hseat : c.Attends seat time) (h : c.Patient limit) (htime : c.InTime limit time)
    {a : Act} (ha : a.Of own) (hown : ¬ own seat.place) : (a.on c).Attends seat time := by
  obtain ⟨k, hk, hopen, hplace⟩ := hseat.1
  obtain ⟨fetch, hk'⟩ := consumer?_of ha hown hk
  refine ⟨⟨_, hk', hopen, hplace⟩, ?_⟩
  have hreached : Reached (a.MayCall c) c.store (a.on c).store := reached_on a c fun _ hcall => hcall
  apply hreached.heard h.agreed.orderly ?_ hseat.2
  intro call hcall
  exact ⟨h.agreed.fair (ha.by _) call hcall, h.bears ha hown hseat htime call hcall⟩

/-- Who was heard of at one of two times was heard of at the later one of them, if at both. -/
theorem Attends.max {time' : Nat} (h : c.Attends seat time) (h' : c.Attends seat time') :
    c.Attends seat (max time time') := by
  rcases Nat.le_total time time' with hle | hle
  · rwa [Nat.max_eq_right hle]
  · rwa [Nat.max_eq_left hle]

/-- Who attends is a member of its group. -/
theorem Attends.member (hseat : c.Attends seat time) (h : c.Patient limit) :
    seat.id ∈ (roster c.store seat.group seat.topic).members :=
  member_of_heard h.agreed.orderly hseat.2

/-! ## One thing after the other -/

namespace Acted

theorem patient (h : Acted own c c') (hc : c.Patient limit) : c'.Patient limit := by
  induction h with
  | refl => exact hc
  | tail _ hstep ih =>
    obtain ⟨a, ha, rfl⟩ := hstep
    exact ih.on ha

/-- Others make nobody late. -/
theorem attends (h : Acted own c c') (hc : c.Patient limit) (htime : c.InTime limit time)
    (hown : ¬ own seat.place) (hseat : c.Attends seat time) : c'.Attends seat time := by
  induction h with
  | refl => exact hseat
  | tail hsteps hstep ih =>
    obtain ⟨a, ha, rfl⟩ := hstep
    exact ih.on (patient hsteps hc) (htime.pace (pace hsteps)) ha hown

end Acted

/-! ## What a consumer does itself -/

/-- A step of its own poll, unless that waits, is a heartbeat. It does not tell the consumer that it
has left. -/
theorem Attends.poll (hseat : c.Attends seat time) (h : c.Patient limit) {p : Polling}
    (hseen : p.seen ≠ some (c.signalsOf seat.place)) {step : PollStep}
    (hpoll : c.poll? seat.place p = some (step, c')) :
    c'.Attends seat c.now ∧ step ≠ .done (.error .closed) := by
  obtain ⟨⟨k, hk, hopen, hgroup, htopic, hid⟩, hheard⟩ := hseat
  have hmember := member_of_heard h.agreed.orderly hheard
  rw [← hgroup, ← htopic, ← hid] at hmember
  obtain ⟨hresult, hnow⟩ := Consumer.ensures_heard h.agreed.orderly (h.agreed.valid _ k hk) hopen
    hmember (h.timely k.broker) k.fetch
  have hturn := on_turn seat.place hk
  have hattends : ((turn seat.place).on c).2.Attends seat c.now := by
    refine ⟨?_, ?_⟩
    · rw [consumer?_turn seat.place hk, if_pos rfl, hk]
      exact ⟨_, rfl, hopen, hgroup, htopic, hid⟩
    · rw [hturn, ← hgroup, ← htopic, ← hid, ← h.oneClock]
      exact hnow
  have hopened : ((turn seat.place).on c).1 ≠ .error .closed := by
    rw [hturn]
    exact hresult
  unfold poll? at hpoll
  dsimp only at hpoll
  rw [if_neg hseen] at hpoll
  rcases hon : (turn seat.place).on c with ⟨result, after⟩
  rw [hon] at hpoll hattends hopened
  rcases result with e | _ | _ | _
  · obtain ⟨rfl, rfl⟩ := Prod.mk.inj (Option.some.inj hpoll)
    refine ⟨hattends, fun heq => hopened ?_⟩
    exact congrArg Except.error (Except.error.inj (PollStep.done.inj heq))
  · obtain ⟨rfl, rfl⟩ := Prod.mk.inj (Option.some.inj hpoll)
    exact ⟨hattends, nofun⟩
  · obtain ⟨rfl, rfl⟩ := Prod.mk.inj (Option.some.inj hpoll)
    exact ⟨hattends, nofun⟩
  · dsimp only at hpoll
    split at hpoll
    · obtain ⟨rfl, rfl⟩ := Prod.mk.inj (Option.some.inj hpoll)
      exact ⟨hattends, nofun⟩
    · obtain ⟨rfl, rfl⟩ := Prod.mk.inj (Option.some.inj hpoll)
      exact ⟨hattends, nofun⟩

omit [PatientStore σ] in
/-- A poll that waits has found nothing, and its time is not up. -/
theorem waits_of_poll? {i : Nat} {p : Polling} (h : c.poll? i p = none) :
    p.seen ≠ none ∧ c.now < p.deadline := by
  unfold poll? at h
  dsimp only at h
  split at h
  · next hseen =>
    split at h
    · cases h
    · next hdeadline =>
      rw [hseen]
      exact ⟨nofun, Nat.lt_of_not_le hdeadline⟩
  · split at h
    · cases h
    · cases h
    · cases h
    · split at h <;> cases h

omit [PatientStore σ] in
/-- A poll that goes on keeps its deadline, and waits only if that is to come. -/
theorem deadline_of_poll? {i : Nat} {p p' : Polling} (h : c.poll? i p = some (.more p', c')) :
    p'.deadline = p.deadline ∧ (p'.seen ≠ none → c.now < p.deadline) := by
  unfold poll? at h
  dsimp only at h
  split at h
  · split at h <;> cases h
  · split at h
    · cases h
    · cases h
    · obtain rfl := PollStep.more.inj (Prod.mk.inj (Option.some.inj h)).1
      exact ⟨rfl, fun hseen => absurd rfl hseen⟩
    · split at h
      · cases h
      · next hdeadline =>
        obtain rfl := PollStep.more.inj (Prod.mk.inj (Option.some.inj h)).1
        exact ⟨rfl, fun _ => Nat.lt_of_not_le hdeadline⟩

/-- Behind a step of its own poll a consumer that is in time is still so. It has been heard of now,
unless the time of the poll was up. -/
theorem Attends.poll_step (hseat : c.Attends seat time) (h : c.Patient limit)
    (htime : c.InTime limit time) {p : Polling} {step : PollStep}
    (hpoll : c.poll? seat.place p = some (step, c')) :
    c'.now = c.now ∧ step ≠ .done (.error .closed) ∧ ∃ time', c'.Attends seat time' ∧
      c'.InTime limit time' ∧ (time' = c.now ∨ step = .done (.ok none)) := by
  by_cases hseen : p.seen = some (c.signalsOf seat.place)
  · unfold poll? at hpoll
    dsimp only at hpoll
    rw [if_pos hseen] at hpoll
    split at hpoll
    · obtain ⟨rfl, rfl⟩ := Prod.mk.inj (Option.some.inj hpoll)
      exact ⟨rfl, nofun, time, hseat, htime, .inr rfl⟩
    · cases hpoll
  · obtain ⟨hnow, hopened⟩ := hseat.poll h hseen hpoll
    have hof : (Act.poll seat.place p).Of fun _ => False := trivial
    have hpace := samePace_on hof c
    simp only [Act.on, hpoll] at hpace
    refine ⟨hpace.now_eq, hopened, c.now, hnow, ?_, .inl rfl⟩
    unfold InTime
    rw [hpace.now_eq]
    omega

/-- Who has joined is heard of, and has a number of its own. -/
theorem attends_subscribe (h : c.Patient limit) {broker place : Nat} {group topic : String}
    (hon : (subscribe broker group topic).on c = (.ok place, c')) :
    place = c.consumers.size ∧ ∃ k, c'.consumer? place = some k ∧ k.id ≠ 0 ∧
      c'.Attends ⟨place, k.id, group, topic⟩ c.now := by
  obtain ⟨s, partitions, id, hs, hjoin, hplace, hk⟩ := subscribed (Fair σ) trivial
    (fun _ => trivial) hon
  have ho := (hs.roster_later h.agreed.orderly (fun _ hcall => hcall) group topic).1
  have hheard := join_heard c.wall group topic s ho
  rw [ensures_on, hjoin, h.oneClock] at hheard
  have hsound : c'.Sound := by
    have hafter := h.agreed.sound.on (.subscribe broker group topic)
    simp only [Act.on, hon] at hafter
    exact hafter
  refine ⟨hplace, _, hk, Nat.ne_of_gt (hsound.id_pos place _ hk), ?_⟩
  exact ⟨⟨_, hk, rfl, rfl, rfl, rfl⟩, hheard id rfl⟩

end Cluster

end WorkQueue
