import WorkQueue.Proofs.Cluster.Agreement
import WorkQueue.Proofs.Cluster.Sole

/-!
# What happens while time stands still

Whatever consumers and their brokers do leaves the clocks and the timeouts as they are: only time that
passes sets the clocks.

## Main definitions

* `Act.Of`: what the consumers at some places do
* `Cluster.SamePace`: the same clocks and timeouts
* `Cluster.InTime`: a time that is not too long ago
* `Cluster.Acted`: what the consumers at some places do, one thing after the other

## Main statements

* `Cluster.samePace_on`, `Cluster.Acted.pace`: only time that passes sets the clocks
* `Cluster.consumer?_of`: nothing but its leaving closes a consumer
-/

namespace WorkQueue

/-- What happens while time stands still, if only consumers at some places leave their groups, and
nobody from outside speaks for a member. -/
def Act.Of (own : Nat → Prop) : Act → Prop
  | .close i => own i
  | .pass _ _ => False
  | .outside (.heartbeat _ _ _ _) => False
  | .outside (.leave _ _ _) => False
  | _ => True

theorem Act.Of.by {own : Nat → Prop} {a : Act} (h : a.Of own) (valid : Nat → Prop) : a.By valid := by
  cases a with
  | outside use =>
    cases use with
    | heartbeat | leave => exact h.elim
    | _ => trivial
  | _ => trivial

namespace Cluster

variable {σ : Type} {c c' c'' : Cluster σ} {own : Nat → Prop}

/-- The clocks and the timeouts stay as they are. -/
structure SamePace (c c' : Cluster σ) : Prop where
  now_eq : c'.now = c.now
  wall_eq : c'.wall = c.wall
  timeout_eq (broker : Nat) : (c'.broker broker).sessionTimeout = (c.broker broker).sessionTimeout

namespace SamePace

theorem refl (c : Cluster σ) : SamePace c c := ⟨rfl, rfl, fun _ => rfl⟩

theorem trans (h : SamePace c c') (h' : SamePace c' c'') : SamePace c c'' where
  now_eq := h'.now_eq.trans h.now_eq
  wall_eq := h'.wall_eq.trans h.wall_eq
  timeout_eq broker := (h'.timeout_eq broker).trans (h.timeout_eq broker)

/-- Waking up those who wait at a broker changes its count only. -/
theorem signal (h : SamePace c c') (index : Nat) : SamePace c (c'.signal index) := by
  apply h.trans
  refine ⟨rfl, rfl, fun broker => ?_⟩
  simp only [Cluster.broker, Cluster.signal, Array.getD_eq_getD_getElem?, Array.getElem?_modify]
  split
  · cases c'.brokers[broker]? <;> simp
  · rfl

end SamePace

/-- `time` is not so long ago that a broker would be out of patience. -/
def InTime (c : Cluster σ) (limit time : Nat) : Prop := time ≤ c.now ∧ c.now ≤ time + limit

theorem InTime.pace {limit time : Nat} (h : c.InTime limit time) (hpace : SamePace c c') :
    c'.InTime limit time := by
  unfold InTime
  rw [hpace.now_eq]
  exact h

theorem samePace_store {α : Type} (m : StoreM σ α) (c : Cluster σ) :
    Ensures (ClusterM.store m) c fun _ c' => SamePace c c' := ⟨rfl, rfl, fun _ => rfl⟩

variable [LogStore σ]

theorem samePace_subscribe (broker : Nat) (group topic : String) (c : Cluster σ) :
    SamePace c ((subscribe broker group topic).on c).2 := by
  have hensures : Ensures (subscribe broker group topic) c fun _ c' => SamePace c c' := by
    unfold subscribe
    rw [ensures_bind, ClusterM.ensures_get]
    dsimp only
    refine (samePace_store _ c).bind ?_ (fun _ _ h => h)
    intro partitions c₁ h₁
    refine (samePace_store _ c₁).bind ?_ (fun _ _ h => h₁.trans h)
    intro id c₂ h₂
    have hsignal := (h₁.trans h₂).signal broker
    exact ⟨hsignal.now_eq, hsignal.wall_eq, hsignal.timeout_eq⟩
  exact hensures

theorem samePace_send (broker : Nat) (topic key : String) (value : ByteArray) (c : Cluster σ) :
    SamePace c ((send broker topic key value).on c).2 := by
  have hensures : Ensures (send broker topic key value) c fun _ c' => SamePace c c' := by
    unfold send
    rw [ensures_bind, ClusterM.ensures_get]
    dsimp only
    refine (samePace_store _ c).bind ?_ (fun _ _ h => h)
    exact fun place c₁ h₁ => h₁.signal broker
  exact hensures

theorem samePace_turn (i : Nat) (c : Cluster σ) : SamePace c ((turn i).on c).2 := by
  cases hk : c.consumer? i with
  | none =>
    rw [on_turn_none i hk]
    exact .refl c
  | some k =>
    rw [on_turn i hk]
    exact ⟨rfl, rfl, fun _ => rfl⟩

theorem samePace_close (i : Nat) (c : Cluster σ) : SamePace c (c.close i) := by
  unfold close
  cases c.consumer? i with
  | none => exact .refl c
  | some k =>
    dsimp only
    split
    · exact .refl c
    · apply SamePace.signal
      exact ⟨rfl, rfl, fun _ => rfl⟩

theorem samePace_use (use : Use) (c : Cluster σ) : SamePace c (use.operation.on c).2 := by
  -- what a single call tells is thrown away
  have hsingle : ∀ {α : Type} (m : StoreM σ α),
      Ensures (do let _ ← ClusterM.store m : ClusterM σ Unit) c fun _ c' => SamePace c c' :=
    fun m => (samePace_store m c).bind (fun _ _ h => h) fun _ _ h => h
  cases use with
  | createTopic topic n => exact samePace_store (LogStore.createTopic topic (max n 1)) c
  | partitions topic => exact hsingle (LogStore.partitions topic)
  | send broker topic key value =>
    have hsend : Ensures (Cluster.send broker topic key value) c fun _ c' => SamePace c c' :=
      samePace_send broker topic key value c
    have hensures : Ensures (Use.send broker topic key value).operation c fun _ c' =>
        SamePace c c' := hsend.bind (fun _ _ h => h) fun _ _ h => h
    exact hensures
  | append topic p key value => exact hsingle (LogStore.append topic p key value)
  | read topic p start limit => exact hsingle (LogStore.read topic p start limit)
  | committed group topic p => exact hsingle (LogStore.committed group topic p)
  | join group topic => exact hsingle (LogStore.join c.wall group topic)
  | heartbeat group topic member timeout =>
    exact hsingle (LogStore.heartbeat c.wall group topic member timeout)
  | leave group topic member => exact samePace_store (LogStore.leave group topic member) c
  | commit group topic p next => exact samePace_store (LogStore.commit group topic p next) c

/-- Only time that passes sets the clocks. -/
theorem samePace_on {a : Act} (ha : a.Of own) (c : Cluster σ) : SamePace c (a.on c) := by
  cases a with
  | subscribe broker group topic => exact samePace_subscribe broker group topic c
  | poll i p =>
    simp only [Act.on]
    cases hpoll : c.poll? i p with
    | none => exact .refl c
    | some next =>
      obtain ⟨step, c'⟩ := next
      rcases poll?_cases hpoll with ⟨rfl, -⟩ | ⟨rfl, -⟩
      · exact .refl c'
      · exact samePace_turn i c
  | commit i offsets =>
    have hensures : Ensures (commit i offsets) c fun _ c' => SamePace c c' := by
      unfold commit
      rw [ensures_bind, ClusterM.ensures_get]
      dsimp only
      split
      · exact SamePace.refl c
      · exact samePace_store _ c
    exact hensures
  | close i => exact samePace_close i c
  | pass timers memberships => exact ha.elim
  | outside use => exact samePace_use use c

/-! ## One thing after the other -/

/-- Nothing but its leaving closes a consumer. -/
theorem consumer?_of {a : Act} (ha : a.Of own) {i : Nat} (hown : ¬ own i) {k : Consumer}
    (hk : c.consumer? i = some k) : ∃ fetch, (a.on c).consumer? i = some { k with fetch } := by
  by_cases hpoll : ∃ p, a = .poll i p
  · obtain ⟨p, rfl⟩ := hpoll
    simp only [Act.on]
    cases hstep : c.poll? i p with
    | none => exact ⟨k.fetch, hk⟩
    | some next =>
      obtain ⟨step, c'⟩ := next
      rcases poll?_cases hstep with ⟨rfl, -⟩ | ⟨rfl, -⟩
      · exact ⟨k.fetch, hk⟩
      · rw [consumer?_turn i hk, if_pos rfl, hk]
        exact ⟨_, rfl⟩
  · refine ⟨k.fetch, consumer?_on hk (fun p heq => hpoll ⟨p, heq⟩) ?_⟩
    rintro rfl
    exact hown ha

/-- No consumer is forgotten. -/
theorem size_on (a : Act) (c : Cluster σ) : c.consumers.size ≤ (a.on c).consumers.size := by
  cases a with
  | subscribe broker group topic =>
    rcases consumers_subscribe broker group topic c with heq | ⟨k, heq⟩
    · exact Nat.le_of_eq (congrArg Array.size heq).symm
    · simp [Act.on, heq]
  | poll i p =>
    simp only [Act.on]
    cases hpoll : c.poll? i p with
    | none => simp
    | some next =>
      obtain ⟨step, c'⟩ := next
      rcases poll?_cases hpoll with ⟨rfl, -⟩ | ⟨rfl, -⟩
      · simp
      · cases hk : c.consumer? i with
        | none => simp [on_turn_none i hk]
        | some k => simp [on_turn i hk]
  | commit i offsets => exact Nat.le_of_eq (congrArg Array.size (consumers_commit i offsets c)).symm
  | close i =>
    simp only [Act.on, close]
    cases c.consumer? i with
    | none => simp
    | some k =>
      dsimp only
      split
      · simp
      · simp [signal]
  | pass timers memberships => exact Nat.le_refl _
  | outside use => exact Nat.le_of_eq (congrArg Array.size (consumers_use use c)).symm

/-- What consumers do one after the other while time stands still, if only those at some places leave
their groups. -/
def Acted (own : Nat → Prop) : Cluster σ → Cluster σ → Prop :=
  Relation.ReflTransGen fun c c' => ∃ a : Act, a.Of own ∧ a.on c = c'

namespace Acted

theorem refl (c : Cluster σ) : Acted own c c := Relation.ReflTransGen.refl

theorem trans (h : Acted own c c') (h' : Acted own c' c'') : Acted own c c'' :=
  Relation.ReflTransGen.trans h h'

theorem single {a : Act} (ha : a.Of own) (c : Cluster σ) : Acted own c (a.on c) :=
  Relation.ReflTransGen.single ⟨a, ha, rfl⟩

theorem pace (h : Acted own c c') : SamePace c c' := by
  induction h with
  | refl => exact .refl c
  | tail _ hstep ih =>
    obtain ⟨a, ha, rfl⟩ := hstep
    exact ih.trans (samePace_on ha _)

theorem size_le (h : Acted own c c') : c.consumers.size ≤ c'.consumers.size := by
  induction h with
  | refl => exact Nat.le_refl _
  | tail _ hstep ih =>
    obtain ⟨a, -, rfl⟩ := hstep
    exact Nat.le_trans ih (size_on a _)

theorem mono {own' : Nat → Prop} (h : Acted own c c')
    (hmore : ∀ place, own place → own' place) : Acted own' c c' := by
  refine Relation.ReflTransGen.mono (fun c₁ c₂ => ?_) _ _ h
  rintro ⟨a, ha, heq⟩
  refine ⟨a, ?_, heq⟩
  cases a with
  | close place => exact hmore place ha
  | outside use => cases use <;> exact ha
  | _ => exact ha

end Acted

end Cluster

end WorkQueue
