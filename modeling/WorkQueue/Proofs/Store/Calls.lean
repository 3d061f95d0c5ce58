import Mathlib.Logic.Relation
import WorkQueue.Proofs.Store.Laws

/-!
# Calls to a store

Consumers, brokers and queues change a store by calling it, one call after the other. So whatever
every call keeps is kept by all that they do, and it is enough to know which calls an operation may
make.

## Main definitions

* `StoreCall`: a call
* `Reached`: one store comes from another by calls of some kind
* `Calls`: the calls that an operation makes

## Main statements

* `Reached.keeps`: what every call keeps
* `Reached.sound`, `Reached.issued_le`, `Reached.position_eq`: what calls keep of what can be seen
* `Consumer.calls_assignment`, `Consumer.calls_commit`: the calls of a consumer
-/

namespace WorkQueue

open StoreView

/-- A call to a store. -/
inductive StoreCall where
  | createTopic (topic : String) (partitions : Int)
  | partitions (topic : String)
  | append (topic : String) (partition : Int) (key : String) (value : ByteArray)
  | read (topic : String) (partition start : Int) (limit : Nat)
  | committed (group topic : String) (partition : Int)
  | commit (group topic : String) (partition next : Int)
  | join (now : Nat) (group topic : String)
  | heartbeat (now : Nat) (group topic : String) (member timeout : Nat)
  | leave (group topic : String) (member : Nat)

variable {σ α β : Type} [LogStore σ]

/-- The store behind a call, whatever the call tells. -/
def StoreCall.on (call : StoreCall) (s : σ) : σ :=
  match call with
  | .createTopic topic n => (StoreM.on (LogStore.createTopic topic n) s).2
  | .partitions topic => (StoreM.on (LogStore.partitions topic) s).2
  | .append topic p key value => (StoreM.on (LogStore.append topic p key value) s).2
  | .read topic p start limit => (StoreM.on (LogStore.read topic p start limit) s).2
  | .committed group topic p => (StoreM.on (LogStore.committed group topic p) s).2
  | .commit group topic p next => (StoreM.on (LogStore.commit group topic p next) s).2
  | .join now group topic => (StoreM.on (LogStore.join now group topic) s).2
  | .heartbeat now group topic member timeout =>
    (StoreM.on (LogStore.heartbeat now group topic member timeout) s).2
  | .leave group topic member => (StoreM.on (LogStore.leave group topic member) s).2

/-- Any call. -/
def AnyCall : StoreCall → Prop := fun _ => True

/-- Store `s'` comes from `s` by calls that are all allowed. -/
def Reached (allowed : StoreCall → Prop) : σ → σ → Prop :=
  Relation.ReflTransGen fun s s' => ∃ call, allowed call ∧ call.on s = s'

namespace Reached

variable {allowed more : StoreCall → Prop} {s s' s'' : σ}

theorem refl (s : σ) : Reached allowed s s := Relation.ReflTransGen.refl

theorem trans (h : Reached allowed s s') (h' : Reached allowed s' s'') : Reached allowed s s'' :=
  Relation.ReflTransGen.trans h h'

theorem single {call : StoreCall} (h : allowed call) (s : σ) : Reached allowed s (call.on s) :=
  Relation.ReflTransGen.single ⟨call, h, rfl⟩

theorem mono (h : Reached allowed s s') (hmore : ∀ call, allowed call → more call) :
    Reached more s s' :=
  Relation.ReflTransGen.mono (fun _ _ ⟨call, hcall, heq⟩ => ⟨call, hmore call hcall, heq⟩) _ _ h

/-- What each allowed call keeps is kept by any number of them. -/
theorem keeps {I : σ → Prop} (h : Reached allowed s s') (hs : I s)
    (hcall : ∀ s call, I s → allowed call → I (call.on s)) : I s' := by
  induction h with
  | refl => exact hs
  | tail _ hstep ih =>
    obtain ⟨call, hallowed, rfl⟩ := hstep
    exact hcall _ call ih hallowed

end Reached

/-- Does a call set a position of a group in a topic? -/
def StoreCall.Commits (group topic : String) : StoreCall → Prop
  | .commit g t _ _ => g = group ∧ t = topic
  | _ => False

/-- What holds behind any call: no number that has been given out is taken back, and only commits
set positions. -/
structure StoreCall.Kept [StoreView σ] (call : StoreCall) (s s' : σ) : Prop where
  sound : Sound s'
  issued_le : issued s ≤ issued s'
  position_eq : ∀ group topic, ¬ call.Commits group topic →
    ∀ p, position s' group topic p = position s group topic p

theorem Unmoved.kept {τ : Type} [StoreView τ] {s s' : τ} (h : Unmoved s s') (call : StoreCall) :
    call.Kept s s' :=
  ⟨h.sound, h.issued_le, fun _ _ _ _ => by rw [h.position_eq]⟩

theorem StoreCall.kept_on [LawfulStore σ] {s : σ} (call : StoreCall) (h : Sound s) :
    call.Kept s (call.on s) := by
  cases call with
  | createTopic topic n => exact (LawfulStore.createTopic_steady topic n s h).kept _
  | partitions topic => exact (LawfulStore.partitions_steady topic s h).kept _
  | append topic p key value => exact (LawfulStore.append_steady topic p key value s h).kept _
  | read topic p start limit => exact (LawfulStore.read_steady topic p start limit s h).kept _
  | committed group topic p => exact (LawfulStore.committed_steady group topic p s h).kept _
  | commit group topic p next =>
    have hcommit := LawfulStore.commit_advances group topic p next s h
    rw [ensures_on] at hcommit
    obtain ⟨hsound, hissued, hposition⟩ := hcommit
    refine ⟨hsound, hissued, fun group' topic' hother p' => ?_⟩
    show position (StoreM.on (LogStore.commit group topic p next) s).2 group' topic' p' = _
    split at hposition
    · rw [hposition]
      exact if_neg fun heq => hother ⟨heq.1.symm, heq.2.1.symm⟩
    · rw [hposition]
  | join now group topic => exact (LawfulStore.join_steady now group topic s h).kept _
  | heartbeat now group topic member timeout =>
    exact (LawfulStore.heartbeat_steady now group topic member timeout s h).kept _
  | leave group topic member => exact (LawfulStore.leave_steady group topic member s h).kept _

/-- A call leaves the store sound. -/
theorem StoreCall.sound_on [LawfulStore σ] {s : σ} (call : StoreCall) (h : Sound s) :
    Sound (call.on s) := (call.kept_on h).sound

section

variable [LawfulStore σ] {allowed : StoreCall → Prop} {s s' : σ}

theorem Reached.sound (h : Reached allowed s s') (hs : Sound s) : Sound s' :=
  h.keeps hs fun _ call hs _ => call.sound_on hs

/-- It is enough that calls to a sound store keep something. -/
theorem Reached.keeps_of_sound {I : σ → Prop} (h : Reached allowed s s') (hs : Sound s) (hI : I s)
    (hcall : ∀ s call, Sound s → I s → allowed call → I (call.on s)) : I s' := by
  have hkept : Sound s' ∧ I s' := by
    refine h.keeps (I := fun s' => Sound s' ∧ I s') ⟨hs, hI⟩ ?_
    intro s₁ call ⟨hs₁, hI₁⟩ hallowed
    exact ⟨call.sound_on hs₁, hcall s₁ call hs₁ hI₁ hallowed⟩
  exact hkept.2

theorem Reached.issued_le (h : Reached allowed s s') (hs : Sound s) : issued s ≤ issued s' :=
  h.keeps_of_sound (I := fun s' => issued s ≤ issued s') hs (Nat.le_refl _)
    fun _ call hs₁ hle _ => Nat.le_trans hle (call.kept_on hs₁).issued_le

/-- As long as nobody commits, positions stay. -/
theorem Reached.position_eq (h : Reached allowed s s') (hs : Sound s) {group topic : String}
    (hallowed : ∀ call, allowed call → ¬ call.Commits group topic) (p : Int) :
    position s' group topic p = position s group topic p := by
  refine h.keeps_of_sound (I := fun s' => position s' group topic p = position s group topic p) hs
    rfl ?_
  intro s₁ call hs₁ heq hcall
  exact ((call.kept_on hs₁).position_eq group topic (hallowed call hcall) p).trans heq

end

/-! ## The calls of an operation -/

/-- An operation changes the store by allowed calls only, whatever it comes to. -/
def Calls (allowed : StoreCall → Prop) (m : StoreM σ α) : Prop :=
  ∀ s, Ensures m s fun _ s' => Reached allowed s s'

namespace Calls

variable {allowed : StoreCall → Prop}

theorem pure (a : α) : Calls (σ := σ) allowed (Pure.pure a) := fun s => Reached.refl s

theorem throw (e : BrokerError) : Calls (σ := σ) (α := α) allowed (MonadExcept.throw e) :=
  fun s => Reached.refl s

theorem bind {m : StoreM σ α} {f : α → StoreM σ β} (hm : Calls allowed m)
    (hf : ∀ a, Calls allowed (f a)) : Calls allowed (m >>= f) := by
  intro s
  refine (hm s).bind ?_ ?_
  · intro a s' hs'
    exact (hf a s').mono fun _ _ => hs'.trans
  · exact fun _ _ hs' => hs'

theorem ite {c : Prop} [Decidable c] {m m' : StoreM σ α} (hm : c → Calls allowed m)
    (hm' : ¬ c → Calls allowed m') : Calls allowed (if c then m else m') := by
  split
  · next h => exact hm h
  · next h => exact hm' h

end Calls

section

variable {allowed : StoreCall → Prop}

theorem calls_createTopic {topic : String} {n : Int} (h : allowed (.createTopic topic n)) :
    Calls (σ := σ) allowed (LogStore.createTopic topic n) := fun s => .single h s

theorem calls_partitions {topic : String} (h : allowed (.partitions topic)) :
    Calls (σ := σ) allowed (LogStore.partitions topic) := fun s => .single h s

theorem calls_append {topic : String} {p : Int} {key : String} {value : ByteArray}
    (h : allowed (.append topic p key value)) :
    Calls (σ := σ) allowed (LogStore.append topic p key value) := fun s => .single h s

theorem calls_read {topic : String} {p start : Int} {limit : Nat}
    (h : allowed (.read topic p start limit)) :
    Calls (σ := σ) allowed (LogStore.read topic p start limit) := fun s => .single h s

theorem calls_committed {group topic : String} {p : Int} (h : allowed (.committed group topic p)) :
    Calls (σ := σ) allowed (LogStore.committed group topic p) := fun s => .single h s

theorem calls_commit {group topic : String} {p next : Int}
    (h : allowed (.commit group topic p next)) :
    Calls (σ := σ) allowed (LogStore.commit group topic p next) := fun s => .single h s

theorem calls_join {now : Nat} {group topic : String} (h : allowed (.join now group topic)) :
    Calls (σ := σ) allowed (LogStore.join now group topic) := fun s => .single h s

theorem calls_heartbeat {now : Nat} {group topic : String} {member timeout : Nat}
    (h : allowed (.heartbeat now group topic member timeout)) :
    Calls (σ := σ) allowed (LogStore.heartbeat now group topic member timeout) :=
  fun s => .single h s

theorem calls_leave {group topic : String} {member : Nat} (h : allowed (.leave group topic member)) :
    Calls (σ := σ) allowed (LogStore.leave group topic member) := fun s => .single h s

/-- A consumer asks who is there by one heartbeat. -/
theorem Consumer.calls_assignment (k : Consumer) {now timeout : Nat}
    (h : allowed (.heartbeat now k.group k.topic k.id timeout)) :
    Calls (σ := σ) allowed (k.assignment now timeout) := by
  unfold assignment
  refine .ite (fun _ => .throw _) fun _ => .bind (calls_heartbeat h) fun m => ?_
  cases m.members.idxOf? k.id with
  | none => exact .throw _
  | some index => exact .pure _

theorem Consumer.calls_commitAll (k : Consumer) (assigned : List Int) (offsets : List (Int × Int))
    (rejected : Option Int)
    (h : ∀ p o, (p, o) ∈ offsets → p ∈ assigned → allowed (.commit k.group k.topic p (o + 1))) :
    Calls (σ := σ) allowed (k.commitAll assigned offsets rejected) := by
  induction offsets generalizing rejected with
  | nil => exact .pure _
  | cons first rest ih =>
    obtain ⟨p, o⟩ := first
    have hrest := fun rejected => ih rejected fun p o ho => h p o (List.mem_cons_of_mem _ ho)
    unfold commitAll
    refine .ite (fun hp => ?_) fun _ => hrest _
    have hcommit := h p o List.mem_cons_self (List.contains_iff_mem.mp hp)
    exact .bind (calls_commit hcommit) fun _ => hrest _

/-- A commit asks who is there and moves positions of the consumer's group and topic. -/
theorem Consumer.calls_commit (k : Consumer) {now timeout : Nat} (offsets : List (Int × Int))
    (hbeat : allowed (.heartbeat now k.group k.topic k.id timeout))
    (hcommit : ∀ p o, (p, o) ∈ offsets → allowed (.commit k.group k.topic p (o + 1))) :
    Calls (σ := σ) allowed (k.commit now timeout offsets) := by
  unfold commit
  refine .bind (k.calls_assignment hbeat) fun ⟨_, assigned⟩ => ?_
  refine .bind (k.calls_commitAll assigned offsets none fun p o ho _ => hcommit p o ho) ?_
  intro rejected
  cases rejected with
  | none => exact .pure _
  | some p => exact .throw _

end

end WorkQueue
