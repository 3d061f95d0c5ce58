import Mathlib.Data.Int.CardIntervalMod
import WorkQueue.Proofs.Consumer.Positions
import WorkQueue.Proofs.Consumer.Reading
import WorkQueue.Proofs.Store.Groups

/-!
# What each member gets

The partitions of a topic are dealt out to the members of a group, so that each goes to exactly one
of them and nobody gets two more than another. Whatever a consumer holds in the latest generation
belongs to its own share.

## Main definitions

* `Membership.share`: the partitions of a member
* `Membership.Deals`: everything is dealt out evenly
* `Fetch.Within`: what a consumer holds belongs to its share, unless its generation is over

## Main statements

* `Membership.deals_of_ascending`: members in ascending order get everything, evenly
* `Consumer.ensures_within`: what a turn hands out belongs to the share that it has been told
-/

namespace WorkQueue

open GroupStore

/-! ## Dealing out partitions -/

theorem mem_dealt {n p : Int} {index members : Nat} :
    p ∈ dealt n index members ↔ 0 ≤ p ∧ p < n ∧ p.toNat % members = index := by
  unfold dealt
  simp only [List.mem_map, List.mem_filter, List.mem_range, beq_iff_eq, Int.ofNat_eq_natCast]
  constructor
  · rintro ⟨q, ⟨hlt, hmod⟩, rfl⟩
    exact ⟨Int.natCast_nonneg q, by omega, hmod⟩
  · rintro ⟨hnonneg, hlt, hmod⟩
    exact ⟨p.toNat, ⟨by omega, hmod⟩, Int.toNat_of_nonneg hnonneg⟩

theorem nodup_dealt (n : Int) (index members : Nat) : (dealt n index members).Nodup :=
  List.Nodup.map (fun _ _ => Int.ofNat.inj) (List.nodup_range.filter _)

/-- Everybody gets the same number, and the first ones one more. -/
theorem length_dealt (n : Int) {index members : Nat} (h : index < members) :
    (dealt n index members).length =
      n.toNat / members + if index < n.toNat % members then 1 else 0 := by
  have hcount := Nat.count_modEq_card n.toNat (Nat.zero_lt_of_lt h) index
  rw [Nat.mod_eq_of_lt h] at hcount
  rw [← hcount]
  unfold dealt Nat.count
  rw [List.length_map, ← List.countP_eq_length_filter]
  apply List.countP_congr
  intro p _
  simp [Nat.ModEq, Nat.mod_eq_of_lt h]

/-- The partitions that a member gets of `n`. -/
def Membership.share (n : Int) (m : Membership) (id : Nat) : List Int :=
  dealt n (m.members.idxOf id) m.members.length

/-- Everything is dealt out to members, each partition to one of them, and evenly. -/
structure Membership.Deals (n : Int) (m : Membership) : Prop where
  nodup : ∀ id ∈ m.members, (m.share n id).Nodup
  apart : ∀ id ∈ m.members, ∀ id' ∈ m.members, id ≠ id' → ∀ p ∈ m.share n id, p ∉ m.share n id'
  cover : m.members ≠ [] → ∀ p, 0 ≤ p ∧ p < n ↔ ∃ id ∈ m.members, p ∈ m.share n id
  even : ∀ id ∈ m.members, ∀ id' ∈ m.members,
    (m.share n id).length ≤ (m.share n id').length + 1

theorem Membership.share_congr {m m' : Membership} (h : m'.members = m.members) (n : Int)
    (id : Nat) : m'.share n id = m.share n id := by
  unfold share
  rw [h]

/-- Nobody gets a partition of somebody else, also if they count different numbers of them. -/
theorem Membership.not_mem_share {m : Membership} {n n' p : Int} {id id' : Nat}
    (hid : id ∈ m.members) (hne : id ≠ id') (hp : p ∈ m.share n id) : p ∉ m.share n' id' := by
  intro hp'
  have hindex := (mem_dealt.mp hp).2.2.symm.trans (mem_dealt.mp hp').2.2
  exact hne ((List.idxOf_inj hid).mp hindex)

theorem Membership.deals_of_ascending {m : Membership} (h : m.members.Pairwise (· < ·)) (n : Int) :
    m.Deals n where
  nodup _ _ := nodup_dealt n _ _
  apart _ hid _ _ hne _ hp := not_mem_share hid hne hp
  cover hsome p := by
    constructor
    · rintro ⟨hnonneg, hlt⟩
      -- the one whose turn it is among the members
      have hindex : p.toNat % m.members.length < m.members.length :=
        Nat.mod_lt _ (List.length_pos_iff.mpr hsome)
      refine ⟨m.members[p.toNat % m.members.length], List.getElem_mem hindex,
        mem_dealt.mpr ⟨hnonneg, hlt, ?_⟩⟩
      have hnodup : m.members.Nodup := h.imp fun hab => Nat.ne_of_lt hab
      exact (hnodup.idxOf_getElem _ hindex).symm
    · rintro ⟨id, -, hp⟩
      have hmem := mem_dealt.mp hp
      exact ⟨hmem.1, hmem.2.1⟩
  even id hid id' hid' := by
    unfold share
    rw [length_dealt n (List.idxOf_lt_length_of_mem hid),
      length_dealt n (List.idxOf_lt_length_of_mem hid')]
    split <;> split <;> omega

/-! ## What a heartbeat tells -/

/-- A membership says who is in a group, and in which generation as long as that fits into a
word. -/
structure Membership.Tells {σ : Type} [LogStore σ] [GroupStore σ] (m : Membership)
    (group topic : String) (s : σ) : Prop where
  members_eq : m.members = (roster s group topic).members
  generation_eq : (roster s group topic).generation ≤ maxWord64 →
    m.generation = (roster s group topic).generation

namespace Consumer

variable {σ : Type} [LogStore σ]

/-- What the heartbeat of a consumer tells, if it is sent and succeeds. -/
def beat (k : Consumer) (now timeout : Nat) (s : σ) : Option Membership :=
  if k.closed then none
  else (StoreM.on (LogStore.heartbeat now k.group k.topic k.id timeout) s).1.toOption

/-- What is assigned to a consumer is its share in the membership it is told. -/
theorem ensures_share (k : Consumer) (now timeout : Nat) (s : σ) :
    Ensures (k.assignment now timeout) s fun result _ => ∀ generation assigned,
      result = .ok (generation, assigned) → ∃ m, k.beat now timeout s = some m ∧ k.id ∈ m.members ∧
        generation = m.generation ∧ assigned = m.share k.partitions k.id := by
  unfold assignment beat
  cases k.closed with
  | true => exact nofun
  | false =>
    rw [if_neg (by simp), if_neg (by simp), ensures_bind, ensures_on]
    cases hresult : (StoreM.on (LogStore.heartbeat now k.group k.topic k.id timeout) s).1 with
    | error e => exact nofun
    | ok m =>
      dsimp only
      cases hindex : m.members.idxOf? k.id with
      | none => exact nofun
      | some index =>
        intro generation assigned heq
        obtain ⟨rfl, rfl⟩ := Prod.mk.inj (Except.ok.inj heq)
        have hmem : k.id ∈ m.members := by
          rw [← List.isSome_idxOf?, hindex]
          rfl
        refine ⟨m, rfl, hmem, rfl, ?_⟩
        unfold Membership.share
        rw [List.idxOf_eq_getD_idxOf?, hindex]
        rfl

/-- A consumer that is told of a membership to which it belongs is assigned its share in it. -/
theorem assignment_eq_share {k : Consumer} {now timeout : Nat} {s : σ} (hopen : k.closed = false)
    {m : Membership}
    (hbeat : ((LogStore.heartbeat now k.group k.topic k.id timeout).on s).1 = .ok m)
    (hmem : k.id ∈ m.members) :
    ((k.assignment now timeout).on s).1 = .ok (m.generation, m.share k.partitions k.id) := by
  have htold : Ensures (LogStore.heartbeat now k.group k.topic k.id timeout) s fun result _ =>
      result = .ok m := hbeat
  have hshare : Ensures (k.assignment now timeout) s fun result _ =>
      result = .ok (m.generation, m.share k.partitions k.id) := by
    unfold assignment Membership.share
    rw [hopen, if_neg Bool.false_ne_true, ensures_bind, List.idxOf_eq_getD_idxOf?]
    refine htold.mono ?_
    rintro _ s' rfl
    dsimp only
    cases hindex : m.members.idxOf? k.id with
    | none => exact absurd hmem (List.idxOf?_eq_none_iff.mp hindex)
    | some index => rfl
  exact hshare

end Consumer

/-! ## What a consumer holds -/

section

variable {σ : Type} [LogStore σ] [GroupStore σ]

/-- Positions and buffered records are of some partitions. -/
structure Fetch.Among (f : Fetch) (assigned : List Int) : Prop where
  positions : ∀ entry ∈ f.positions, entry.1 ∈ assigned
  buffer : ∀ r ∈ f.buffer, r.partition ∈ assigned

/-- As long as the generation noted is not over, what a consumer holds belongs to its share. -/
structure Fetch.Within (k : Consumer) (f : Fetch) (s : σ) : Prop where
  generation_le : ∀ generation, f.generation = some generation →
    generation ≤ (roster s k.group k.topic).generation
  share : f.generation = some (roster s k.group k.topic).generation →
    k.id ∈ (roster s k.group k.topic).members ∧
      f.Among ((roster s k.group k.topic).share k.partitions k.id)

namespace Fetch

variable {k : Consumer} {f : Fetch} {s s' : σ} {assigned : List Int}

theorem within_empty (k : Consumer) (s : σ) : Fetch.Within k {} s := ⟨nofun, nofun⟩

theorem Within.later (h : f.Within k s)
    (hlater : (roster s k.group k.topic).Later (roster s' k.group k.topic)) : f.Within k s' := by
  refine ⟨fun generation hg => Nat.le_trans (h.generation_le generation hg) hlater.generation_le,
    fun hg => ?_⟩
  -- the generation noted is still the latest one, so nothing has happened to the group
  have heq := hlater.eq_of_generation_eq
    (Nat.le_antisymm (h.generation_le _ hg) hlater.generation_le)
  rw [heq] at hg ⊢
  exact h.share hg

theorem among_retain (f : Fetch) (assigned : List Int) : (f.retain assigned).Among assigned :=
  ⟨fun _ hentry => List.contains_iff_mem.mp (List.mem_filter.mp hentry).2,
    fun _ hr => List.contains_iff_mem.mp (List.mem_filter.mp hr).2⟩

theorem Among.setPosition (h : f.Among assigned) {p : Int} (hp : p ∈ assigned) (n : Int) :
    (f.setPosition p n).Among assigned := by
  refine ⟨fun entry hentry => ?_, h.buffer⟩
  rcases mem_insertPosition hentry with heq | hold
  · rw [show entry.1 = p from congrArg Prod.fst heq]
    exact hp
  · exact h.positions entry hold

theorem Among.take (h : f.Among assigned) {slot : Nat} {p start : Int} {records : List Record}
    (hslot : f.positions[slot]? = some (p, start)) (hrecords : ∀ r ∈ records, r.partition = p)
    (last : Record) : (f.take slot p records last).Among assigned := by
  have hp : p ∈ assigned := h.positions (p, start) (List.mem_of_getElem? hslot)
  refine ⟨(h.setPosition hp _).positions, fun r hr => ?_⟩
  rcases List.mem_append.mp hr with hold | hnew
  · exact h.buffer r hold
  · rw [hrecords r hnew]
    exact hp

end Fetch

theorem Membership.Tells.congr {m : Membership} {group topic : String} {s s' : σ}
    (h : m.Tells group topic s) (heq : roster s' group topic = roster s group topic) :
    m.Tells group topic s' :=
  ⟨heq ▸ h.members_eq, heq ▸ h.generation_eq⟩

theorem Membership.Tells.eq_roster {m : Membership} {group topic : String} {s : σ}
    (h : m.Tells group topic s)
    (hfits : (roster s group topic).generation ≤ maxWord64) : m = roster s group topic := by
  obtain ⟨generation, members⟩ := m
  have hgeneration := h.generation_eq hfits
  have hmembers := h.members_eq
  dsimp only at hgeneration hmembers
  rw [hgeneration, hmembers]

/-- Calls of other kinds leave the groups alone. -/
theorem ensures_roster_eq {α : Type} {m : StoreM σ α} {call : StoreCall} {s : σ} (ho : Orderly s)
    (hcalls : Calls (· = call) m) (hby : call.By (Valid σ))
    (hother : ∀ group topic, ¬ call.Concerns group topic) (group topic : String) :
    Ensures m s fun _ s' => Orderly s' ∧ roster s' group topic = roster s group topic := by
  have hfair : ∀ call', call' = call → Fair σ call' := fun _ heq => heq ▸ hby
  apply (hcalls s).mono
  intro _ s' hreached
  exact ⟨(hreached.roster_later ho hfair group topic).1,
    hreached.roster_eq ho hfair fun _ heq => heq ▸ hother group topic⟩

variable {k : Consumer} {f : Fetch} {s : σ}

/-- A heartbeat tells who is in the group behind it. -/
theorem Consumer.ensures_told (ho : Orderly s) (hid : Valid σ k.id) (now timeout : Nat) :
    Ensures (k.assignment now timeout) s fun _ s' => Orderly s' ∧
      (roster s k.group k.topic).Later (roster s' k.group k.topic) ∧
      ∀ m, k.beat now timeout s = some m → m.Tells k.group k.topic s' := by
  have hby : (StoreCall.heartbeat now k.group k.topic k.id timeout).By (Valid σ) := hid
  have horderly := orderly_on _ s ho hby
  have hlater := (roster_on _ s ho hby k.group k.topic).1
  have htells := heartbeat_tells now k.group k.topic k.id timeout s ho hid
  rw [ensures_on] at htells
  unfold assignment beat
  cases k.closed with
  | true => exact ⟨ho, .refl _, nofun⟩
  | false =>
    rw [if_neg (by simp), if_neg (by simp), ensures_bind, ensures_on]
    cases hresult : (StoreM.on (LogStore.heartbeat now k.group k.topic k.id timeout) s).1 with
    | error e => exact ⟨horderly, hlater, nofun⟩
    | ok m =>
      have hm : m.Tells k.group k.topic
          (StoreM.on (LogStore.heartbeat now k.group k.topic k.id timeout) s).2 :=
        ⟨(htells.1 m hresult).1, (htells.1 m hresult).2⟩
      dsimp only
      cases m.members.idxOf? k.id with
      | none => exact ⟨horderly, hlater, fun m' heq => Option.some.inj heq ▸ hm⟩
      | some index => exact ⟨horderly, hlater, fun m' heq => Option.some.inj heq ▸ hm⟩

/-- What a consumer knows that has sent its heartbeat to `s` and been told of membership `m`; the store
is `s'` by now. -/
structure Consumer.Told (k : Consumer) (now timeout : Nat) (s : σ) (m : Membership) (s' : σ) :
    Prop where
  orderly : Orderly s'
  later : (roster s k.group k.topic).Later (roster s' k.group k.topic)
  beat : k.beat now timeout s = some m
  mem : k.id ∈ m.members
  tells : m.Tells k.group k.topic s'

namespace Consumer.Told

variable {now timeout : Nat} {m : Membership} {s' s'' : σ}

theorem congr (h : k.Told now timeout s m s') (ho : Orderly s'')
    (heq : roster s'' k.group k.topic = roster s' k.group k.topic) :
    k.Told now timeout s m s'' :=
  ⟨ho, heq ▸ h.later, h.beat, h.mem, h.tells.congr heq⟩

theorem tells_of_beat (h : k.Told now timeout s m s') {m' : Membership}
    (hm' : k.beat now timeout s = some m') : m'.Tells k.group k.topic s' := by
  rw [h.beat] at hm'
  exact Option.some.inj hm' ▸ h.tells

/-- The generation has been noted. -/
theorem within (h : k.Told now timeout s m s') {f' : Fetch}
    (hfits : (roster s' k.group k.topic).generation ≤ maxWord64)
    (hgeneration : f'.generation = some m.generation)
    (hamong : f'.Among (m.share k.partitions k.id)) : f'.Within k s' := by
  refine ⟨fun generation hg => ?_, fun _ => ⟨h.tells.members_eq ▸ h.mem, ?_⟩⟩
  · rw [hgeneration] at hg
    rw [← h.tells.generation_eq hfits, Option.some.inj hg]
  · rw [← Membership.share_congr h.tells.members_eq]
    exact hamong

/-- The generation has not been noted yet, so the one noted is over. -/
theorem within_of_old (h : k.Told now timeout s m s') {f' : Fetch}
    (hfits : (roster s' k.group k.topic).generation ≤ maxWord64) (hf : f.Within k s)
    (hsame : f'.generation = f.generation) (hnew : f.generation ≠ some m.generation) :
    f'.Within k s' := by
  refine ⟨fun generation hg => ?_, fun hg => ?_⟩
  · rw [hsame] at hg
    exact Nat.le_trans (hf.generation_le generation hg) h.later.generation_le
  · rw [hsame, ← h.tells.generation_eq hfits] at hg
    exact absurd hg hnew

end Consumer.Told

/-- What a turn hands out belongs to the consumer's share in the membership that the turn has been
told, and so does what it leaves. -/
theorem Consumer.ensures_within (ho : Orderly s) (hid : Valid σ k.id) (now timeout : Nat)
    (h : (roster s k.group k.topic).generation ≤ maxWord64 → f.Within k s) :
    Ensures (k.turn now timeout) (f, s) fun result after =>
      (∀ m, k.beat now timeout s = some m → m.Tells k.group k.topic after.2) ∧
      ((roster after.2 k.group k.topic).generation ≤ maxWord64 → after.1.Within k after.2 ∧
        ∀ r ∈ handed result, ∃ m, k.beat now timeout s = some m ∧ k.id ∈ m.members ∧
          after.1.generation = some m.generation ∧ r.partition ∈ m.share k.partitions k.id) := by
  -- generations before fit into words if the latest one does
  have hbefore : ∀ {s' : σ}, (roster s k.group k.topic).Later (roster s' k.group k.topic) →
      (roster s' k.group k.topic).generation ≤ maxWord64 → f.Within k s := fun hlater hfits =>
    h (Nat.le_trans hlater.generation_le hfits)
  have rule : k.TurnRule now timeout (fun f' s' => f' = f ∧ s' = s)
      (fun generation assigned f' s' => ∃ m, k.Told now timeout s m s' ∧
        generation = m.generation ∧ assigned = m.share k.partitions k.id ∧ f'.Among assigned ∧
        f'.generation = f.generation ∧ f.generation ≠ some generation)
      (fun f' s' => ∃ m, k.Told now timeout s m s' ∧ f'.generation = some m.generation ∧
        ((roster s' k.group k.topic).generation ≤ maxWord64 →
          f'.Among (m.share k.partitions k.id)))
      (fun result f' s' => (∀ m, k.beat now timeout s = some m → m.Tells k.group k.topic s') ∧
        ((roster s' k.group k.topic).generation ≤ maxWord64 → f'.Within k s' ∧
          ∀ r ∈ handed result, ∃ m, k.beat now timeout s = some m ∧ k.id ∈ m.members ∧
            f'.generation = some m.generation ∧ r.partition ∈ m.share k.partitions k.id)) := by
    constructor
    case told =>
      intro f' s₁ ⟨hf, hs⟩
      rw [hf, hs]
      refine ((ensures_told ho hid now timeout).and (k.ensures_share now timeout s)).mono ?_
      intro result s' ⟨⟨horderly, hlater, htells⟩, hshare⟩
      rcases result with e | ⟨generation, assigned⟩
      · exact ⟨htells, fun hfits => ⟨(hbefore hlater hfits).later hlater, nofun⟩⟩
      · obtain ⟨m, hbeat, hmem, rfl, rfl⟩ := hshare generation assigned rfl
        have htold : k.Told now timeout s m s' := ⟨horderly, hlater, hbeat, hmem, htells m hbeat⟩
        dsimp only
        split
        · next hsame =>
          refine ⟨m, htold, hsame, fun hfits => ?_⟩
          have hwithin := (hbefore hlater hfits).later hlater
          rw [Membership.share_congr htold.tells.members_eq]
          exact (hwithin.share (htold.tells.generation_eq hfits ▸ hsame)).2
        · next hnew => exact ⟨m, htold, rfl, rfl, Fetch.among_retain f _, rfl, hnew⟩
    case opened =>
      rintro _ _ f' s₁ p ⟨m, htold, rfl, rfl, hamong, hsame, hnew⟩ hp _
      refine (ensures_roster_eq htold.orderly (calls_committed rfl) trivial (fun _ _ hc => hc) k.group
        k.topic).mono ?_
      intro result s' ⟨horderly, heq⟩
      have htold' := htold.congr horderly heq
      cases result with
      | error e =>
        exact ⟨fun _ => htold'.tells_of_beat, fun hfits =>
          ⟨htold'.within_of_old hfits (hbefore htold'.later hfits) hsame hnew, nofun⟩⟩
      | ok position => exact ⟨m, htold', rfl, rfl, hamong.setPosition hp _, hsame, hnew⟩
    case noted =>
      rintro _ _ f' s' ⟨m, htold, rfl, rfl, hamong, -, -⟩
      exact ⟨m, htold, rfl, fun _ => ⟨hamong.positions, hamong.buffer⟩⟩
    case handed =>
      rintro f' s' r rest ⟨m, htold, hgeneration, hamong⟩ hbuffer
      refine ⟨fun _ => htold.tells_of_beat, fun hfits => ⟨?_, fun r' hr' => ?_⟩⟩
      · have hrest : ∀ r' ∈ rest, r' ∈ f'.buffer := fun r' hr' =>
          hbuffer ▸ List.mem_cons_of_mem r hr'
        exact htold.within hfits hgeneration
          ⟨(hamong hfits).positions, fun r' hr' => (hamong hfits).buffer r' (hrest r' hr')⟩
      · rw [List.mem_singleton.mp hr']
        exact ⟨m, htold.beat, htold.mem, hgeneration,
          (hamong hfits).buffer r (hbuffer ▸ List.mem_cons_self)⟩
    case fetched =>
      rintro f' s₁ slot p start ⟨m, htold, hgeneration, hamong⟩ - hslot
      have hsound := sound_of_orderly s₁ htold.orderly
      refine ((ensures_roster_eq htold.orderly (calls_read rfl) trivial (fun _ _ hc => hc) k.group
        k.topic).and (LawfulStore.read_consecutive k.topic p start fetchBatch s₁ hsound)).mono ?_
      intro result s' ⟨⟨horderly, heq⟩, hrecords⟩
      have htold' := htold.congr horderly heq
      cases result with
      | error e =>
        exact ⟨fun _ => htold'.tells_of_beat, fun hfits =>
          ⟨htold'.within hfits hgeneration (hamong (heq ▸ hfits)), nofun⟩⟩
      | ok records =>
        dsimp only
        cases records.getLast? with
        | none => exact ⟨m, htold', hgeneration, fun hfits => hamong (heq ▸ hfits)⟩
        | some last =>
          have hpartition : ∀ r ∈ records, r.partition = p := fun _ =>
            (hrecords records rfl).partition_of_mem
          exact ⟨fun _ => htold'.tells_of_beat, fun hfits =>
            ⟨htold'.within hfits hgeneration ((hamong (heq ▸ hfits)).take hslot hpartition last),
              nofun⟩⟩
    case idled =>
      rintro f' s' ⟨m, htold, hgeneration, hamong⟩ -
      exact ⟨fun _ => htold.tells_of_beat, fun hfits =>
        ⟨htold.within hfits hgeneration (hamong hfits), nofun⟩⟩
  exact rule.ensures ⟨rfl, rfl⟩

end

end WorkQueue
