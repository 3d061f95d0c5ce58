import WorkQueue.Consumer.Basic

/-!
# Laws of log stores

What the theory of consumers and queues asks of a store, whatever keeps its records: a read goes on
from where it begins without a gap, a commit moves one position forward and no other, a new member
gets a number that nobody had, and nothing else touches the positions. Any operation may fail.

The laws speak of an operation by what holds behind it. `Ensures` says this of operations on stores,
consumers and clusters alike; its lemmas follow the way operations are put together.

## Main definitions

* `Ensures`: what holds behind an operation
* `Consecutive`: records without a gap
* `LawfulStore`: the laws
-/

namespace WorkQueue

/-! ## What holds behind an operation -/

section Ensures

variable {τ α β : Type}

/-- Behind operation `m` from state `s`, its result and the state satisfy `Q`. -/
def Ensures (m : ExceptT BrokerError (StateM τ) α) (s : τ)
    (Q : Except BrokerError α → τ → Prop) : Prop :=
  Q ((ExceptT.run m).run s).1 ((ExceptT.run m).run s).2

variable {m : ExceptT BrokerError (StateM τ) α} {s : τ} {Q R : Except BrokerError α → τ → Prop}

theorem Ensures.mono (h : Ensures m s Q) (hQR : ∀ result s', Q result s' → R result s') :
    Ensures m s R := hQR _ _ h

theorem Ensures.and (hQ : Ensures m s Q) (hR : Ensures m s R) :
    Ensures m s fun result s' => Q result s' ∧ R result s' := ⟨hQ, hR⟩

/-- What an operation asks of the one behind it: a failure ends both. -/
theorem ensures_bind {f : α → ExceptT BrokerError (StateM τ) β}
    {S : Except BrokerError β → τ → Prop} :
    Ensures (m >>= f) s S ↔
      Ensures m s fun result s' =>
        match result with
        | .ok a => Ensures (f a) s' S
        | .error e => S (.error e) s' := by
  unfold Ensures
  show S (ExceptT.run (m >>= f) s).1 (ExceptT.run (m >>= f) s).2 ↔ _
  rw [ExceptT.run_bind]
  show S ((ExceptT.run m >>= _ : StateM τ _) s).1 ((ExceptT.run m >>= _ : StateM τ _) s).2 ↔ _
  simp only [bind, StateT.bind, StateT.run]
  rcases ExceptT.run m s with ⟨_ | a, s'⟩ <;> rfl

/-- The steps of an operation one by one: `S` in between, whatever the result. -/
theorem Ensures.bind {f : α → ExceptT BrokerError (StateM τ) β}
    {S : Except BrokerError β → τ → Prop} (h : Ensures m s Q)
    (hok : ∀ a s', Q (.ok a) s' → Ensures (f a) s' S)
    (herror : ∀ e s', Q (.error e) s' → S (.error e) s') : Ensures (m >>= f) s S := by
  rw [ensures_bind]
  apply h.mono
  intro result s' hQ
  cases result with
  | ok a => exact hok a s' hQ
  | error e => exact herror e s' hQ

end Ensures

variable {σ α : Type}

theorem ensures_on {m : StoreM σ α} {s : σ} {Q : Except BrokerError α → σ → Prop} :
    Ensures m s Q ↔ Q (m.on s).1 (m.on s).2 := Iff.rfl

namespace FetchM

variable {m : StoreM σ α} {f : Fetch} {s : σ}

theorem ensures_store {Q : Except BrokerError α → Fetch × σ → Prop} :
    Ensures (FetchM.store m) (f, s) Q ↔ Ensures m s fun result s' => Q result (f, s') := Iff.rfl

theorem ensures_fetch {Q : Except BrokerError Fetch → Fetch × σ → Prop} :
    Ensures (FetchM.fetch : FetchM σ Fetch) (f, s) Q ↔ Q (.ok f) (f, s) := Iff.rfl

theorem ensures_modifyFetch {change : Fetch → Fetch}
    {Q : Except BrokerError Unit → Fetch × σ → Prop} :
    Ensures (FetchM.modifyFetch change : FetchM σ Unit) (f, s) Q ↔ Q (.ok ()) (change f, s) := Iff.rfl

end FetchM

/-! ## Records without a gap -/

/-- Records of a partition without a gap, the first one at offset `start`. -/
def Consecutive (topic : String) (partition : Int) : Int → List Record → Prop
  | _, [] => True
  | start, r :: rest =>
    r.topic = topic ∧ r.partition = partition ∧ r.offset = start ∧
      Consecutive topic partition (start + 1) rest

namespace Consecutive

variable {topic : String} {partition start : Int} {records more : List Record}

theorem append_iff :
    Consecutive topic partition start (records ++ more) ↔
      Consecutive topic partition start records ∧
        Consecutive topic partition (start + records.length) more := by
  induction records generalizing start with
  | nil => simp [Consecutive]
  | cons r rest ih =>
    have hnext : start + 1 + (rest.length : Int) = start + ((r :: rest).length : Int) := by
      simp only [List.length_cons]
      omega
    simp only [List.cons_append, Consecutive, ih, hnext, and_assoc]

theorem take (h : Consecutive topic partition start records) (n : Nat) :
    Consecutive topic partition start (records.take n) := by
  induction records generalizing start n with
  | nil => simpa using h
  | cons first rest ih =>
    obtain ⟨h₁, h₂, h₃, hrest⟩ := h
    cases n with
    | zero => trivial
    | succ n => exact ⟨h₁, h₂, h₃, ih hrest n⟩

/-- What lies from some offset on has no gap either. -/
theorem from_offset (h : Consecutive topic partition start records) (first : Int) :
    Consecutive topic partition (max first start)
      (records.filter fun r => decide (first ≤ r.offset)) := by
  induction records generalizing start with
  | nil => trivial
  | cons r rest ih =>
    obtain ⟨htopic, hpartition, hoffset, hrest⟩ := h
    have hih := ih hrest
    by_cases hle : first ≤ start
    · rw [List.filter_cons_of_pos (by simpa [hoffset] using hle), Int.max_eq_right hle]
      rw [Int.max_eq_right (by omega)] at hih
      exact ⟨htopic, hpartition, hoffset, hih⟩
    · rw [List.filter_cons_of_neg (by simpa [hoffset] using hle)]
      rw [Int.max_eq_left (by omega)] at hih ⊢
      exact hih

/-- The last offset tells the number of records. -/
theorem offset_getLast? (h : Consecutive topic partition start records) {r : Record}
    (hr : records.getLast? = some r) : r.offset + 1 = start + records.length := by
  induction records generalizing start with
  | nil => cases hr
  | cons first rest ih =>
    obtain ⟨-, -, hoffset, hrest⟩ := h
    cases rest with
    | nil =>
      obtain rfl := Option.some.inj hr
      simp [hoffset]
    | cons second rest =>
      rw [List.getLast?_cons_cons] at hr
      rw [ih hrest hr, List.length_cons, List.length_cons, List.length_cons]
      omega

/-- All of them belong to the one partition. -/
theorem filter_partition (h : Consecutive topic partition start records) (q : Int) :
    records.filter (·.partition == q) = if q = partition then records else [] := by
  induction records generalizing start with
  | nil => simp
  | cons r rest ih =>
    obtain ⟨-, hpartition, -, hrest⟩ := h
    by_cases hq : q = partition
    · rw [List.filter_cons, if_pos (by simp [hpartition, hq]), ih hrest, if_pos hq, if_pos hq]
    · rw [List.filter_cons, if_neg (by simp [hpartition, Ne.symm hq]), ih hrest, if_neg hq,
        if_neg hq]

theorem partition_of_mem (h : Consecutive topic partition start records) {r : Record}
    (hr : r ∈ records) : r.partition = partition := by
  have hall := h.filter_partition partition
  rw [if_pos rfl] at hall
  exact beq_iff_eq.mp (List.filter_eq_self.mp hall r hr)

theorem topic_of_mem (h : Consecutive topic partition start records) {r : Record}
    (hr : r ∈ records) : r.topic = topic := by
  induction records generalizing start with
  | nil => cases hr
  | cons first rest ih =>
    rcases List.mem_cons.mp hr with rfl | hr
    · exact h.1
    · exact ih h.2.2.2 hr

theorem le_offset (h : Consecutive topic partition start records) {r : Record} (hr : r ∈ records) :
    start ≤ r.offset := by
  induction records generalizing start with
  | nil => cases hr
  | cons first rest ih =>
    obtain ⟨-, -, hoffset, hrest⟩ := h
    rcases List.mem_cons.mp hr with rfl | hr
    · exact Int.le_of_eq hoffset.symm
    · have hle := ih hrest hr
      omega

/-- The first record is the one with the smallest offset. -/
theorem forall_le_offset_iff (h : Consecutive topic partition start records) (hne : records ≠ [])
    (n : Int) : (∀ r ∈ records, n ≤ r.offset) ↔ n ≤ start := by
  constructor
  · intro hall
    obtain ⟨first, rest, rfl⟩ := List.exists_cons_of_ne_nil hne
    have hoffset : first.offset = start := h.2.2.1
    rw [← hoffset]
    exact hall first List.mem_cons_self
  · intro hle r hr
    exact Int.le_trans hle (h.le_offset hr)

end Consecutive

/-! ## Laws -/

/-- Positions of groups in partitions of topics. -/
abbrev Positions := String → String → Int → Option Int

/-- The positions behind a commit: one of them is set, unless it is further already. -/
def Positions.advance (position : Positions) (group topic : String) (partition next : Int) :
    Positions :=
  fun group' topic' partition' =>
    if group' = group ∧ topic' = topic ∧ partition' = partition then
      some (max ((position group topic partition).getD next) next)
    else position group' topic' partition'

/-- What can be seen of a log store from outside. -/
class StoreView (σ : Type) where
  /-- The states it can be in. -/
  Sound : σ → Prop
  /-- The offset each group reads next in a partition of a topic, if it ever committed. -/
  position : σ → Positions
  /-- The largest member number given out. -/
  issued : σ → Nat

open StoreView

/-- What holds of the store behind an operation that commits nothing. -/
structure Unmoved {σ : Type} [StoreView σ] (s s' : σ) : Prop where
  sound : Sound s'
  position_eq : position s' = position s
  issued_le : issued s ≤ issued s'

/-- An operation that commits nothing, whatever it comes to. -/
def Steady {σ α : Type} [StoreView σ] (m : StoreM σ α) : Prop :=
  ∀ s, Sound s → Ensures m s fun _ s' => Unmoved s s'

/-- A log store that can be relied on. -/
class LawfulStore (σ : Type) [LogStore σ] extends StoreView σ where
  createTopic_steady (topic : String) (n : Int) :
    Steady (LogStore.createTopic topic n : StoreM σ Unit)
  partitions_steady (topic : String) :
    Steady (LogStore.partitions topic : StoreM σ (Option Int))
  append_steady (topic : String) (partition : Int) (key : String) (value : ByteArray) :
    Steady (LogStore.append topic partition key value : StoreM σ Int)
  read_steady (topic : String) (partition start : Int) (limit : Nat) :
    Steady (LogStore.read topic partition start limit : StoreM σ (List Record))
  committed_steady (group topic : String) (partition : Int) :
    Steady (LogStore.committed group topic partition : StoreM σ (Option Int))
  join_steady (now : Nat) (group topic : String) :
    Steady (LogStore.join now group topic : StoreM σ Nat)
  heartbeat_steady (now : Nat) (group topic : String) (member timeout : Nat) :
    Steady (LogStore.heartbeat now group topic member timeout : StoreM σ Membership)
  leave_steady (group topic : String) (member : Nat) :
    Steady (LogStore.leave group topic member : StoreM σ Unit)
  read_consecutive (topic : String) (partition start : Int) (limit : Nat) (s : σ) (h : Sound s) :
    Ensures (LogStore.read topic partition start limit) s fun result _ =>
      ∀ records, result = .ok records → Consecutive topic partition (max start 0) records
  committed_eq (group topic : String) (partition : Int) (s : σ) (h : Sound s) :
    Ensures (LogStore.committed group topic partition) s fun result _ =>
      ∀ n, result = .ok n → n = position s group topic partition
  join_new (now : Nat) (group topic : String) (s : σ) (h : Sound s) :
    Ensures (LogStore.join now group topic) s fun result s' =>
      ∀ id, result = .ok id → issued s < id ∧ id ≤ issued s'
  /-- A commit that fails has moved nothing. -/
  commit_advances (group topic : String) (partition next : Int) (s : σ) (h : Sound s) :
    Ensures (LogStore.commit group topic partition next) s fun result s' =>
      Sound s' ∧ issued s ≤ issued s' ∧
        match result with
        | .ok () => position s' = (position s).advance group topic partition next
        | .error _ => position s' = position s

end WorkQueue
