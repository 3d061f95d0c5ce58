import WorkQueue.Proofs.Consumer.Resume
import WorkQueue.Proofs.Consumer.Shares

/-!
# The only member of a group

Whoever is alone in a group is assigned every partition, in whatever generation. So it never drops a
partition that it has opened, and the offsets that it is handed of a partition ascend for good: each
lies behind all those handed before.

## Main definitions

* `Leads`: ascending offsets in front of where a consumer goes on
* `Consumer.Alone`: nobody else is in the group
* `Consumer.Suits`: calls that bring nobody else into the group

## Main statements

* `Reached.alone`: such calls leave the consumer alone
* `Consumer.ensures_alone`: a turn of a consumer that is alone drops nothing
* `Consumer.Turned.leads`: what it hands out comes behind what was handed out before
-/

namespace WorkQueue

open GroupStore

/-! ## Offsets in front of where a consumer goes on -/

/-- The offsets of the records of a partition. -/
def offsetsIn (p : Int) (records : List Record) : List Int :=
  (records.filter (·.partition == p)).map (·.offset)

@[simp] theorem offsetsIn_nil (p : Int) : offsetsIn p [] = [] := rfl

@[simp] theorem offsetsIn_append (p : Int) (records more : List Record) :
    offsetsIn p (records ++ more) = offsetsIn p records ++ offsetsIn p more := by
  simp [offsetsIn]

/-- Offsets that ascend, in front of the one that comes next. Where nothing is next there are
none. -/
structure Leads (offsets : List Int) (next : Option Int) : Prop where
  ascending : offsets.Pairwise (· < ·)
  lt : ∀ o ∈ offsets, ∃ n, next = some n ∧ o < n

namespace Leads

variable {offsets : List Int} {next : Option Int}

theorem nil (next : Option Int) : Leads [] next := ⟨List.Pairwise.nil, nofun⟩

theorem eq_nil (h : Leads offsets none) : offsets = [] := by
  cases offsets with
  | nil => rfl
  | cons o rest =>
    obtain ⟨n, hn, -⟩ := h.lt o List.mem_cons_self
    cases hn

theorem snoc {n : Int} (h : Leads offsets (some n)) : Leads (offsets ++ [n]) (some (n + 1)) := by
  have hlt : ∀ o ∈ offsets, o < n := fun o ho => by
    obtain ⟨m, hm, hlt⟩ := h.lt o ho
    exact Option.some.inj hm ▸ hlt
  constructor
  · refine List.pairwise_append.mpr ⟨h.ascending, List.pairwise_singleton _ _, fun o ho o' ho' => ?_⟩
    rw [List.mem_singleton.mp ho']
    exact hlt o ho
  · intro o ho
    refine ⟨n + 1, rfl, ?_⟩
    rcases List.mem_append.mp ho with ho | ho
    · have := hlt o ho
      omega
    · rw [List.mem_singleton.mp ho]
      exact Int.lt_succ n

/-- Records without a gap go on from the offset that comes next. -/
theorem append {topic : String} {p start : Int} {records : List Record}
    (h : Leads offsets (some start)) (hrecords : Consecutive topic p start records) :
    Leads (offsets ++ records.map (·.offset)) (some (start + records.length)) := by
  induction records generalizing offsets start with
  | nil => simpa using h
  | cons r rest ih =>
    obtain ⟨-, -, rfl, hrest⟩ := hrecords
    have hnext := ih h.snoc hrest
    rw [List.append_assoc] at hnext
    have hcount : r.offset + ((r :: rest).length : Int) = r.offset + 1 + (rest.length : Int) := by
      rw [List.length_cons]
      omega
    rw [List.map_cons, hcount]
    exact hnext

end Leads

/-- What a turn hands out of a partition comes behind what was handed out before, unless the turn
drops the partition. -/
theorem Consumer.Turned.leads {k : Consumer} {position : Int → Option Int} {f f' : Fetch}
    {result : Except BrokerError Turn} (h : k.Turned position f result f') (hf : f.Linked k.topic)
    {p : Int} (hkept : f.position? p ≠ none → f'.position? p ≠ none) {offsets : List Int}
    (hoffsets : Leads offsets (f.resume? p)) :
    Leads (offsets ++ offsetsIn p (handed result)) (f'.resume? p) := by
  unfold offsetsIn
  by_cases hheld : f'.position? p = none
  -- it was not held before either
  · have hnone : f.position? p = none := not_imp_not.mp hkept hheld
    rw [hf.resume?_eq_none hnone] at hoffsets
    rw [hoffsets.eq_nil, h.nothing_of_dropped hf hheld]
    exact .nil _
  · obtain ⟨hhanded, hnext⟩ := h.consecutive_of_held hf hheld
    rw [hnext]
    refine Leads.append ?_ hhanded
    cases hresume : f.resume? p with
    | none =>
      rw [hresume] at hoffsets
      rw [hoffsets.eq_nil]
      exact .nil _
    | some n =>
      rw [hresume] at hoffsets
      exact hoffsets

/-! ## Nobody else in the group -/

/-- All partitions of the topic. -/
def Consumer.whole (k : Consumer) : List Int := dealt k.partitions 0 1

/-- One member gets everything. -/
theorem Membership.share_of_alone {m : Membership} {id : Nat} (hmem : id ∈ m.members)
    (hascending : m.members.Pairwise (· < ·)) (halone : ∀ other ∈ m.members, other = id) (n : Int) :
    m.share n id = dealt n 0 1 := by
  have hmembers : m.members = [id] := by
    cases hm : m.members with
    | nil =>
      rw [hm] at hmem
      cases hmem
    | cons first rest =>
      rw [hm] at hascending halone
      obtain rfl := halone first List.mem_cons_self
      cases rest with
      | nil => rfl
      | cons second rest =>
        have hlt := (List.pairwise_cons.mp hascending).1 second List.mem_cons_self
        rw [halone second (List.mem_cons_of_mem _ List.mem_cons_self)] at hlt
        exact absurd hlt (Nat.lt_irrefl _)
  simp [share, hmembers]

variable {σ : Type} [LogStore σ] [GroupStore σ] {k : Consumer} {s s' : σ}

/-- Nobody else is in the consumer's group. -/
def Consumer.Alone (k : Consumer) (s : σ) : Prop :=
  ∀ id ∈ (roster s k.group k.topic).members, id = k.id

/-- A call that brings nobody else into the consumer's group: if it has to do with the group at all,
it is a heartbeat of the consumer. -/
def Consumer.Suits (σ : Type) [LogStore σ] [GroupStore σ] (k : Consumer) (call : StoreCall) : Prop :=
  call.By (Valid σ) ∧
    (call.Concerns k.group k.topic →
      ∃ now timeout, call = .heartbeat now k.group k.topic k.id timeout)

/-- A heartbeat of the consumer brings in nobody else. -/
theorem Consumer.Alone.heartbeat (h : k.Alone s) (ho : Orderly s) (hid : Valid σ k.id)
    (now timeout : Nat) :
    k.Alone (StoreCall.on (.heartbeat now k.group k.topic k.id timeout) s) := by
  intro id hmem
  have htells := heartbeat_tells now k.group k.topic k.id timeout s ho hid
  rw [ensures_on] at htells
  rcases htells.2 id hmem with hself | hold
  · exact hself
  · exact h id hold

theorem Reached.alone {allowed : StoreCall → Prop} (h : Reached allowed s s') (ho : Orderly s)
    (hallowed : ∀ call, allowed call → k.Suits σ call) (halone : k.Alone s) :
    Orderly s' ∧ k.Alone s' := by
  refine h.keeps_of_orderly (I := fun s' => k.Alone s') ho
    (fun call hcall => (hallowed call hcall).1) halone ?_
  intro s₁ call ho₁ halone₁ hcall
  obtain ⟨hby, hconcerns⟩ := hallowed call hcall
  by_cases hgroup : call.Concerns k.group k.topic
  · obtain ⟨now, timeout, rfl⟩ := hconcerns hgroup
    exact halone₁.heartbeat ho₁ hby now timeout
  · unfold Consumer.Alone
    rw [(roster_on call s₁ ho₁ hby k.group k.topic).2 hgroup]
    exact halone₁

/-- A consumer that is alone is assigned all partitions. -/
theorem Consumer.ensures_assigned (ho : Orderly s) (hid : Valid σ k.id) (halone : k.Alone s)
    (now timeout : Nat) :
    Ensures (k.assignment now timeout) s fun result _ => ∀ generation assigned,
      result = .ok (generation, assigned) → assigned = k.whole := by
  have hcalls : Calls (k.Suits σ) (k.assignment now timeout : StoreM σ (Nat × List Int)) :=
    k.calls_assignment ⟨hid, fun _ => ⟨now, timeout, rfl⟩⟩
  refine (((hcalls s).and (ensures_told ho hid now timeout)).and (k.ensures_share now timeout s)).mono ?_
  rintro result s' ⟨⟨hreached, -, -, htells⟩, hshare⟩ generation assigned hresult
  obtain ⟨ho', halone'⟩ := hreached.alone ho (fun _ hcall => hcall) halone
  obtain ⟨m, hbeat, hmem, -, rfl⟩ := hshare generation assigned hresult
  have hmembers := (htells m hbeat).members_eq
  apply Membership.share_of_alone hmem
  · rw [hmembers]
    exact ascending_roster s' ho' k.group k.topic
  · rw [hmembers]
    exact halone'

/-! ## Turns of a consumer that is alone -/

/-- What a consumer holds in any generation: partitions of its topic only, and all that it has held
in state `f`. -/
structure Fetch.Grows (k : Consumer) (f f' : Fetch) : Prop where
  among : f'.Among k.whole
  kept : ∀ p, f.position? p ≠ none → f'.position? p ≠ none

namespace Fetch.Grows

variable {f f' : Fetch}

theorem retain (h : f'.Among k.whole) (hkept : ∀ p, f.position? p ≠ none → f'.position? p ≠ none) :
    f.Grows k (f'.retain k.whole) := by
  refine ⟨among_retain f' k.whole, fun p hp => ?_⟩
  have hheld := hkept p hp
  -- whatever is held is a partition of the topic
  obtain ⟨n, hn⟩ := Option.ne_none_iff_exists'.mp hheld
  obtain ⟨q, n', hmem, hq⟩ : ∃ q n', (q, n') ∈ f'.positions ∧ q = p := by
    have hsome : (f'.positions.lookup p).isSome = true := by
      unfold position? at hn
      rw [hn]
      rfl
    obtain ⟨entry, hentry, hkey⟩ := List.lookup_isSome_iff.mp hsome
    exact ⟨entry.1, entry.2, hentry, (beq_iff_eq.mp hkey).symm⟩
  have hwhole : k.whole.contains p = true :=
    List.contains_iff_mem.mpr (hq ▸ h.positions (q, n') hmem)
  rw [position?_retain, if_pos hwhole]
  exact hheld

theorem setPosition (h : f.Grows k f') {p : Int} (hp : p ∈ k.whole) (n : Int) :
    f.Grows k (f'.setPosition p n) := by
  refine ⟨h.among.setPosition hp n, fun q hq => ?_⟩
  rw [position?_setPosition]
  split
  · exact Option.some_ne_none n
  · exact h.kept q hq

theorem take (h : f.Grows k f') {slot : Nat} {p start : Int} {records : List Record}
    (hslot : f'.positions[slot]? = some (p, start)) (hrecords : ∀ r ∈ records, r.partition = p)
    (last : Record) : f.Grows k (f'.take slot p records last) := by
  refine ⟨h.among.take hslot hrecords last, fun q hq => ?_⟩
  rw [position?_take]
  split
  · exact Option.some_ne_none _
  · exact h.kept q hq

end Fetch.Grows

/-- A turn of a consumer that is alone drops no partition, and hands out records of the topic's
partitions only. -/
theorem Consumer.ensures_alone {f : Fetch} (ho : Orderly s) (hid : Valid σ k.id)
    (halone : k.Alone s) (hf : f.Among k.whole) (now timeout : Nat) :
    Ensures (k.turn now timeout) (f, s) fun result after =>
      f.Grows k after.1 ∧ ∀ r ∈ handed result, r.partition ∈ k.whole := by
  have rule : k.TurnRule now timeout (fun f' s' => f' = f ∧ s' = s)
      (fun _ assigned f' s' => LawfulStore.toStoreView.Sound s' ∧ assigned = k.whole ∧ f.Grows k f')
      (fun f' s' => LawfulStore.toStoreView.Sound s' ∧ f.Grows k f')
      (fun result f' _ => f.Grows k f' ∧ ∀ r ∈ handed result, r.partition ∈ k.whole) := by
    have hstart : f.Grows k f := ⟨hf, fun _ hp => hp⟩
    constructor
    case told =>
      rintro f' s₁ ⟨rfl, rfl⟩
      have hsound := sound_of_orderly s₁ ho
      refine ((ensures_assignment hsound now timeout).and
        (ensures_assigned ho hid halone now timeout)).mono ?_
      rintro result s' ⟨hmoved, hassigned⟩
      rcases result with e | ⟨generation, assigned⟩
      · exact ⟨hstart, nofun⟩
      · obtain rfl := hassigned generation assigned rfl
        dsimp only
        split
        · exact ⟨hmoved.sound, hstart⟩
        · exact ⟨hmoved.sound, rfl, .retain hf fun _ hp => hp⟩
    case opened =>
      rintro _ _ f' s₁ p ⟨hsound, rfl, hgrows⟩ hp -
      apply (LawfulStore.committed_steady k.group k.topic p s₁ hsound).mono
      intro result s' hmoved
      cases result with
      | error e => exact ⟨hgrows, nofun⟩
      | ok position => exact ⟨hmoved.sound, rfl, hgrows.setPosition hp _⟩
    case noted =>
      rintro _ _ f' s' ⟨hsound, rfl, hgrows⟩
      exact ⟨hsound, ⟨hgrows.among.positions, hgrows.among.buffer⟩, hgrows.kept⟩
    case handed =>
      rintro f' s' r rest ⟨-, hgrows⟩ hbuffer
      have hbefore := hgrows.among.buffer
      rw [hbuffer] at hbefore
      refine ⟨⟨⟨hgrows.among.positions, fun r' hr' => ?_⟩, hgrows.kept⟩, fun r' hr' => ?_⟩
      · exact hbefore r' (List.mem_cons_of_mem r hr')
      · rw [List.mem_singleton.mp hr']
        exact hbefore r List.mem_cons_self
    case fetched =>
      rintro f' s₁ slot p start ⟨hsound, hgrows⟩ - hslot
      refine ((LawfulStore.read_steady k.topic p start fetchBatch s₁ hsound).and
        (LawfulStore.read_consecutive k.topic p start fetchBatch s₁ hsound)).mono ?_
      rintro result s' ⟨hmoved, hrecords⟩
      cases result with
      | error e => exact ⟨hgrows, nofun⟩
      | ok records =>
        dsimp only
        cases records.getLast? with
        | none => exact ⟨hmoved.sound, hgrows⟩
        | some last =>
          have hpartition : ∀ r ∈ records, r.partition = p := fun _ =>
            (hrecords records rfl).partition_of_mem
          exact ⟨hgrows.take hslot hpartition last, nofun⟩
    case idled =>
      rintro f' s' ⟨-, hgrows⟩ -
      exact ⟨hgrows, nofun⟩
  exact rule.ensures ⟨rfl, rfl⟩

end WorkQueue
