import WorkQueue.Proofs.Cluster.Operations
import WorkQueue.Proofs.Envelope.RoundTrip
import WorkQueue.Proofs.Store.Records

/-!
# How deep a payload may nest

Writing has no limit where reading has one. So a task whose payload nests too deeply is published
like any other, and whoever is handed its record cannot read it. Up to that depth nothing is lost: a
task can be written and read again as often as it is retried.

## Main definitions

* `MemoryLog.Partitioned`: every topic has a partition

## Main statements

* `MemoryLog.ensures_append`: a store in memory takes every record
* `Envelope.decode_encode_limit`: what is read again, and from which depth on nothing is
-/

namespace WorkQueue

/-! ## Publishing in memory -/

namespace MemoryLog

variable {s s' : MemoryLog}

/-- Every topic has a partition. -/
def Partitioned (s : MemoryLog) : Prop := ∀ topic logs, s.topic? topic = some logs → 0 < logs.size

theorem partitioned_of_topics (h : s.Partitioned) (htopics : s'.topics = s.topics) :
    s'.Partitioned := fun topic logs hlogs => h topic logs (by rwa [topic?, htopics] at hlogs)

/-- A topic that is put in place has to have a partition. -/
theorem Partitioned.put (h : s.Partitioned) {topic : String}
    {logs : Array (Array (String × ByteArray))} (hlogs : 0 < logs.size) :
    Partitioned { s with topics := Keyed.put topic logs s.topics } := by
  intro topic' logs' hlogs'
  unfold topic? at hlogs'
  rw [lookup_put_of_lawful] at hlogs'
  split at hlogs'
  · exact Option.some.inj hlogs' ▸ hlogs
  · exact h topic' logs' hlogs'

theorem Partitioned.on (h : s.Partitioned) (call : StoreCall) : (call.on s).Partitioned := by
  cases call with
  | createTopic topic n =>
    simp only [StoreCall.on, LogStore.createTopic, StoreM.on_update]
    split
    · exact h
    · refine h.put ?_
      rw [Array.size_replicate]
      omega
  | append topic p key value =>
    show (s.append topic p key value).2.Partitioned
    unfold append
    split
    · exact h
    next found hlog =>
      obtain ⟨logs, hlogs, -, -⟩ := log_eq_ok hlog
      refine h.put ?_
      rw [hlogs, Array.size_setIfInBounds]
      exact h topic logs hlogs
  | leave group topic member =>
    apply partitioned_of_topics h
    simp only [StoreCall.on, LogStore.leave, StoreM.on_update]
    split <;> rfl
  | partitions | read | committed | commit | join | heartbeat => exact partitioned_of_topics h rfl

/-- In a store that began empty every topic has a partition. -/
theorem partitioned_of_reached {allowed : StoreCall → Prop} (h : Reached allowed empty s) :
    s.Partitioned :=
  h.keeps (fun _ _ hlogs => by cases hlogs) fun _ call hs _ => hs.on call

/-- A topic that is not there yet is created. -/
theorem topic?_createTopic {topic : String} (h : s.topic? topic = none) (n : Int) :
    ((StoreCall.createTopic topic n).on s).topic? topic =
      some (Array.replicate (max n 1).toNat #[]) := by
  simp only [StoreCall.on, LogStore.createTopic, StoreM.on_update, h]
  show List.lookup topic (Keyed.put topic _ s.topics) = _
  rw [lookup_put_of_lawful, if_pos rfl]

/-- After a topic has been asked for it is there, with the number of partitions told. -/
theorem ensures_ensureTopic (b : Broker) (topic : String) (h : s.Partitioned) :
    Ensures (b.ensureTopic topic) s fun result s' => s'.Partitioned ∧
      ∃ logs, s'.topic? topic = some logs ∧ result = .ok (logs.size : Int) := by
  have hask : ∀ s : MemoryLog, Ensures (LogStore.partitions topic) s fun result s' =>
      s' = s ∧ result = .ok ((s.topic? topic).map fun logs => (logs.size : Int)) :=
    fun s => ⟨rfl, rfl⟩
  unfold Broker.ensureTopic
  refine (hask s).bind ?_ (by rintro _ _ ⟨-, hresult⟩; cases hresult)
  rintro found _ ⟨rfl, hfound⟩
  obtain rfl := Except.ok.inj hfound
  rename_i s
  cases htopic : s.topic? topic with
  | some logs => exact ⟨h, logs, htopic, rfl⟩
  | none =>
    -- it is created, and then it is there
    have hcreate : Ensures (LogStore.createTopic topic b.defaultPartitions) s fun result s' =>
        s'.Partitioned ∧ result = .ok () ∧ ∃ logs, s'.topic? topic = some logs := by
      exact ⟨h.on (.createTopic topic b.defaultPartitions), rfl, _, topic?_createTopic htopic _⟩
    refine hcreate.bind ?_ (by rintro _ _ ⟨-, hresult, -⟩; cases hresult)
    rintro _ created ⟨hcreated, -, logs, hlogs⟩
    refine (hask created).bind ?_ (by rintro _ _ ⟨-, hresult⟩; cases hresult)
    rintro found _ ⟨rfl, hfound⟩
    obtain rfl := Except.ok.inj hfound
    rw [hlogs]
    exact ⟨hcreated, logs, hlogs, rfl⟩

/-- A store in memory takes every record, and keeps it at the place it tells. -/
theorem ensures_append (b : Broker) (topic key : String) (value : ByteArray) (h : s.Partitioned) :
    Ensures (b.append topic key value) s fun result s' => ∃ p o, result = .ok (p, o) ∧
      ⟨topic, p, o, key, value⟩ ∈ s'.recordsOf topic p := by
  unfold Broker.append
  refine (ensures_ensureTopic b topic h).bind ?_ (by rintro _ _ ⟨-, _, -, hresult⟩; cases hresult)
  rintro n s' ⟨hs', logs, hlogs, hn⟩
  obtain rfl := Except.ok.inj hn
  have hpos : 0 < (logs.size : Int) := Int.natCast_pos.mpr (hs' topic logs hlogs)
  obtain ⟨hnonneg, hlt⟩ := partitionFor_mem key hpos
  obtain ⟨found, hlog⟩ : ∃ found, s'.log topic (partitionFor key logs.size) = .ok found := by
    have hinside : (partitionFor key logs.size).toNat < logs.size := by omega
    refine ⟨logs[(partitionFor key logs.size).toNat], ?_⟩
    rw [log, hlogs]
    simp only [if_neg (Int.not_lt.mpr hnonneg), Array.getElem?_eq_getElem hinside]
  have happend : Ensures (LogStore.append topic (partitionFor key logs.size) key value) s'
      fun result s'' => result = .ok (found.size : Int) ∧
        ⟨topic, partitionFor key logs.size, found.size, key, value⟩ ∈
          s''.recordsOf topic (partitionFor key logs.size) := by
    rw [ensures_on, on_append]
    constructor
    · rw [append, hlog]
    · rw [recordsOf_append hlog, if_pos ⟨rfl, rfl⟩]
      exact List.mem_append_right _ (List.mem_singleton.mpr rfl)
  refine happend.bind ?_ (by rintro _ _ ⟨hresult, -⟩; cases hresult)
  rintro o s'' ⟨ho, hrecord⟩
  obtain rfl := Except.ok.inj ho
  exact ⟨_, _, rfl, hrecord⟩

end MemoryLog

namespace Cluster

/-- What a broker in memory is given to publish it publishes. -/
theorem send_eq_ok {c : Cluster MemoryLog} (h : c.store.Partitioned) (broker : Nat)
    (topic key : String) (value : ByteArray) : ∃ p o, ((send broker topic key value).on c).1 = .ok (p, o) ∧
      ⟨topic, p, o, key, value⟩ ∈ ((send broker topic key value).on c).2.store.recordsOf topic p := by
  have hensures : Ensures (send broker topic key value) c fun result c' => ∃ p o,
      result = .ok (p, o) ∧ ⟨topic, p, o, key, value⟩ ∈ c'.store.recordsOf topic p := by
    unfold send
    rw [ensures_bind, ClusterM.ensures_get]
    dsimp only
    rw [ensures_bind, ClusterM.ensures_store]
    apply (MemoryLog.ensures_append (c.broker broker) topic key value h).mono
    rintro result store ⟨p, o, rfl, hrecord⟩
    exact ⟨p, o, rfl, hrecord⟩
  exact hensures

variable {σ : Type} [LogStore σ]

/-- A payload that JSON can write is published or refused by the broker alone. -/
theorem enqueue_eq {taskType : String} {payload : RawPayload} {v : Json} (h : payload.toJson = .ok v)
    (broker : Nat) (topic key : String) (c : Cluster σ) :
    c.enqueue broker topic key taskType payload =
      ((((send broker topic key (Envelope.encode ⟨taskType, v, none⟩)).on c).1.mapError .publish),
        ((send broker topic key (Envelope.encode ⟨taskType, v, none⟩)).on c).2) := by
  rw [enqueue, Envelope.create, h]

end Cluster

namespace Envelope

/-- A payload with at most 126 brackets around its innermost value is what can be read again. One
with more is handed to the broker like any other, so in memory it is published, and reading its
record ends at the depth. Whatever was read can be written and read again, and so can its next
attempt. -/
theorem decode_encode_limit :
    (∀ e : Envelope, e.Plain →
      (decode e.encode = .ok e ↔ e.payload.nesting ≤ 126) ∧
      (126 < e.payload.nesting → decode e.encode = .error (.malformed .tooDeep))) ∧
    (∀ (payload : RawPayload) (v : Json), payload.toJson = .ok v →
      ∀ {σ : Type} [LogStore σ] (c : Cluster σ) (broker : Nat) (topic key taskType : String),
        c.enqueue broker topic key taskType payload =
          ((((Cluster.send broker topic key (encode ⟨taskType, v, none⟩)).on c).1.mapError .publish),
            ((Cluster.send broker topic key (encode ⟨taskType, v, none⟩)).on c).2)) ∧
    (∀ (payload : RawPayload) (v : Json), payload.toJson = .ok v → v.Normal → v.floatFree = true →
      126 < v.nesting →
      ∀ (c : Cluster MemoryLog) (broker : Nat) (topic key taskType : String),
        Reached AnyCall MemoryLog.empty c.store →
        ∃ p o bytes, (c.enqueue broker topic key taskType payload).1 = .ok (p, o) ∧
          ⟨topic, p, o, key, bytes⟩ ∈
            (c.enqueue broker topic key taskType payload).2.store.recordsOf topic p ∧
          decode bytes = .error (.malformed .tooDeep)) ∧
    (∀ (bytes : ByteArray) (e : Envelope), decode bytes = .ok e → e.payload.floatFree = true →
      decode e.encode = .ok e ∧ decode e.nextAttempt.encode = .ok e.nextAttempt) := by
  have hdeep : ∀ e : Envelope, e.Plain → 126 < e.payload.nesting →
      decode e.encode = .error (.malformed .tooDeep) := by
    intro e he hdeep
    rw [decode_encode he, if_neg (Nat.not_le.mpr hdeep)]
  refine ⟨fun e he => ⟨decode_encode_eq_ok_iff he, hdeep e he⟩, ?_, ?_, ?_⟩
  · intro payload v hv σ _ c broker topic key taskType
    exact Cluster.enqueue_eq hv broker topic key c
  · intro payload v hv hnormal hfree hnesting c broker topic key taskType hreached
    obtain ⟨p, o, hsent, hrecord⟩ := Cluster.send_eq_ok (MemoryLog.partitioned_of_reached hreached)
      broker topic key (encode ⟨taskType, v, none⟩)
    refine ⟨p, o, _, ?_, ?_, hdeep ⟨taskType, v, none⟩ ⟨hnormal, hfree, by simp⟩ hnesting⟩
    · rw [Cluster.enqueue_eq hv, hsent]
      rfl
    · rw [Cluster.enqueue_eq hv]
      exact hrecord
  · intro bytes e hread hfree
    exact ⟨decode_encode_of_decode hread hfree, decode_encode_nextAttempt hread hfree⟩

/-- Lists within lists. -/
def nested : Nat → Json
  | 0 => .null
  | n + 1 => .arr [nested n]

theorem nested_plain (n : Nat) : (nested n).Normal ∧ (nested n).floatFree = true ∧
    (nested n).nesting = n := by
  induction n with
  | zero => exact ⟨trivial, rfl, rfl⟩
  | succ n ih =>
    obtain ⟨hnormal, hfree, hnesting⟩ := ih
    refine ⟨⟨hnormal, trivial⟩, ?_, ?_⟩
    · simp [nested, Json.floatFree, Json.floatFreeItems, hfree]
    · simp [nested, Json.nesting, Json.nestingItems, hnesting]

/-- Escapes and characters beyond ASCII, the ends of the range of whole numbers, an object whose keys
are out of order, and a counter at its limit. -/
def intricate : ByteArray :=
  ("[ \"cr\\u00e4wl\\n\", \x7b\"b\":[-9223372036854775808,18446744073709551615],".append
    "\"a\":\"\\ud83d\\ude00\"\x7d, 4294967295]").toUTF8

/-- The envelope that is read from it. -/
def intricateRead : Envelope where
  taskType := "cräwl\n"
  payload := .obj [("a", .str "😀"),
    ("b", .arr [.int (-9223372036854775808), .int 18446744073709551615])]
  executeCount := some 4294967295

theorem decode_encode_limit_nested :
    (decode (encode ⟨"crawl", nested 126, none⟩) = .ok ⟨"crawl", nested 126, none⟩ ∧
      decode (encode ⟨"crawl", nested 127, none⟩) = .error (.malformed .tooDeep)) ∧
    (∃ p o bytes, let c : Cluster MemoryLog := { store := .empty, brokers := #[{}] }
      (c.enqueue 0 "tasks" "k" "crawl" (.json (nested 127))).1 = .ok (p, o) ∧
        ⟨"tasks", p, o, "k", bytes⟩ ∈
          (c.enqueue 0 "tasks" "k" "crawl" (.json (nested 127))).2.store.recordsOf "tasks" p ∧
        decode bytes = .error (.malformed .tooDeep)) ∧
    (decode intricate = .ok intricateRead ∧ decode intricateRead.encode = .ok intricateRead ∧
      decode intricateRead.nextAttempt.encode = .ok intricateRead.nextAttempt) := by
  obtain ⟨hlimit, -, hpublished, hread⟩ := decode_encode_limit
  have hplain : ∀ n, Plain ⟨"crawl", nested n, none⟩ := fun n =>
    ⟨(nested_plain n).1, (nested_plain n).2.1, by simp⟩
  have hintricate : decode intricate = .ok intricateRead := by decide +kernel
  refine ⟨⟨?_, ?_⟩, ?_, hintricate, hread intricate intricateRead hintricate rfl⟩
  · exact (hlimit _ (hplain 126)).1.mpr (Nat.le_of_eq (nested_plain 126).2.2)
  · exact (hlimit _ (hplain 127)).2 (Nat.lt_of_lt_of_eq (by decide) (nested_plain 127).2.2.symm)
  · exact hpublished (.json (nested 127)) (nested 127) rfl (nested_plain 127).1 (nested_plain 127).2.1
      (Nat.lt_of_lt_of_eq (by decide) (nested_plain 127).2.2.symm) { store := .empty, brokers := #[{}] }
      0 "tasks" "k" "crawl" (.refl _)

end Envelope

end WorkQueue
