import WorkQueue.Proofs.Consumer.Turns

/-!
# What a turn of reading does

A turn sends a heartbeat, brings the positions to the latest generation, and then hands out a
record or fetches some. All that it does to the state of the consumer are five small changes:
dropping what is not assigned, opening a position, noting the generation, taking over records, and
handing one out. A property that the first four keep therefore holds in front of the last one,
however the calls to the store come out.

## Main definitions

* `Consumer.Synced`, `Consumer.Turned`: what becomes of the state of a consumer
* `Consumer.Keeps`: a property that reading keeps

## Main statements

* `Consumer.ensures_turned`: a turn does nothing else
* `Consumer.Keeps.turned`: what holds behind a turn
* `Consumer.ensures_commit`: what holds of the store behind a commit
-/

namespace WorkQueue

open StoreView

variable {σ : Type} [LogStore σ] [LawfulStore σ]

namespace Unmoved

variable {s s' s'' : σ}

theorem refl (h : Sound s) : Unmoved s s := ⟨h, rfl, Nat.le_refl _⟩

theorem trans (h : Unmoved s s') (h' : Unmoved s' s'') : Unmoved s s'' :=
  ⟨h'.sound, h'.position_eq.trans h.position_eq, Nat.le_trans h.issued_le h'.issued_le⟩

end Unmoved

namespace Consumer

variable {k : Consumer} {s : σ} {f : Fetch}

/-! ## Assignment -/

/-- A heartbeat commits nothing. What it assigns are partitions of the topic. -/
theorem ensures_assignment (h : Sound s) (now timeout : Nat) :
    Ensures (k.assignment now timeout) s fun _ s' => Unmoved s s' := by
  unfold assignment
  dsimp only
  split
  · exact Unmoved.refl h
  · refine (LawfulStore.heartbeat_steady now k.group k.topic k.id timeout s h).bind ?_ ?_
    · intro m s' hmoved
      split
      · exact hmoved
      · exact hmoved
    · exact fun _ _ hmoved => hmoved

/-! ## What a turn can do -/

/-- Positions opened one after the other, each at the group's position. -/
inductive Opens (position : Int → Option Int) (assigned : List Int) (f : Fetch) : Fetch → Prop where
  | refl : Opens position assigned f f
  | step {f' : Fetch} {p : Int} (h : Opens position assigned f f') (hp : p ∈ assigned)
      (hnone : f'.positions.any (·.1 == p) = false) :
      Opens position assigned f (f'.setPosition p ((position p).getD 0))

/-- What becomes of the state when it is brought to the latest generation, which may fail. -/
inductive Synced (position : Int → Option Int) (f : Fetch) : Bool → Fetch → Prop where
  /-- The generation is the one noted, or nobody tells. -/
  | same (ok : Bool) : Synced position f ok f
  | broken {assigned : List Int} {f' : Fetch}
      (h : Opens position assigned (f.retain assigned) f') : Synced position f false f'
  | renewed {assigned : List Int} {f' : Fetch} {generation : Nat}
      (h : Opens position assigned (f.retain assigned) f')
      (hnew : f.generation ≠ some generation) :
      Synced position f true { f' with generation := some generation }

/-- What becomes of the state in a turn. -/
inductive Turned (k : Consumer) (position : Int → Option Int) (f : Fetch) :
    Except BrokerError Turn → Fetch → Prop where
  | failed {ok : Bool} {f' : Fetch} (h : Synced position f ok f') (e : BrokerError) :
      Turned k position f (.error e) f'
  | record {f' : Fetch} {r : Record} {rest : List Record} (h : Synced position f true f')
      (hbuffer : f'.buffer = r :: rest) :
      Turned k position f (.ok (.record r)) { f' with buffer := rest }
  | filled {f' : Fetch} {slot : Nat} {p start : Int} {records : List Record} {last : Record}
      (h : Synced position f true f') (hslot : f'.positions[slot]? = some (p, start))
      (hrecords : Consecutive k.topic p (max start 0) records)
      (hlast : records.getLast? = some last) :
      Turned k position f (.ok .filled) (f'.take slot p records last)
  | idle {f' : Fetch} (h : Synced position f true f') : Turned k position f (.ok .idle) f'

/-- A turn does nothing else, however the calls to the store come out. -/
theorem ensures_turned (h : Sound s) (f : Fetch) (now timeout : Nat) :
    Ensures (k.turn now timeout) (f, s) fun result after =>
      Unmoved s after.2 ∧ k.Turned (position s k.group k.topic) f result after.1 := by
  have rule : k.TurnRule now timeout (fun f' s' => f' = f ∧ s' = s)
      (fun generation assigned f' s' => Unmoved s s' ∧ f.generation ≠ some generation ∧
        Opens (position s k.group k.topic) assigned (f.retain assigned) f')
      (fun f' s' => Unmoved s s' ∧ Synced (position s k.group k.topic) f true f')
      (fun result f' s' => Unmoved s s' ∧ k.Turned (position s k.group k.topic) f result f') := by
    constructor
    case told =>
      rintro _ _ ⟨rfl, rfl⟩
      apply (ensures_assignment h now timeout).mono
      intro result s' hmoved
      rcases result with e | ⟨generation, assigned⟩
      · exact ⟨hmoved, .failed (.same false) e⟩
      · dsimp only
        split
        · exact ⟨hmoved, .same true⟩
        · next hnew => exact ⟨hmoved, hnew, .refl⟩
    case opened =>
      intro generation assigned f' s₁ p ⟨hmoved, hnew, hopens⟩ hp hnone
      refine ((LawfulStore.committed_steady k.group k.topic p s₁ hmoved.sound).and
        (LawfulStore.committed_eq k.group k.topic p s₁ hmoved.sound)).mono ?_
      intro result s' ⟨hsteady, hvalue⟩
      cases result with
      -- the generation is noted last, so a failure leaves the old one
      | error e => exact ⟨hmoved.trans hsteady, .failed (.broken hopens) e⟩
      | ok n =>
        rw [hvalue n rfl, hmoved.position_eq]
        exact ⟨hmoved.trans hsteady, hnew, hopens.step hp hnone⟩
    case noted =>
      exact fun _ _ _ _ ⟨hmoved, hnew, hopens⟩ => ⟨hmoved, .renewed hopens hnew⟩
    case handed =>
      exact fun _ _ _ _ ⟨hmoved, hsynced⟩ hbuffer => ⟨hmoved, .record hsynced hbuffer⟩
    case fetched =>
      intro f' s₁ slot p start ⟨hmoved, hsynced⟩ _ hslot
      refine ((LawfulStore.read_steady k.topic p start fetchBatch s₁ hmoved.sound).and
        (LawfulStore.read_consecutive k.topic p start fetchBatch s₁ hmoved.sound)).mono ?_
      intro result s' ⟨hsteady, hvalue⟩
      cases result with
      | error e => exact ⟨hmoved.trans hsteady, .failed hsynced e⟩
      | ok records =>
        dsimp only
        cases hlast : records.getLast? with
        | none => exact ⟨hmoved.trans hsteady, hsynced⟩
        | some last =>
          exact ⟨hmoved.trans hsteady, .filled hsynced hslot (hvalue records rfl) hlast⟩
    case idled => exact fun _ _ ⟨hmoved, hsynced⟩ _ => ⟨hmoved, .idle hsynced⟩
  exact rule.ensures ⟨rfl, rfl⟩

/-! ## What a turn keeps -/

/-- The record that a turn hands out, if any. -/
def handed : Except BrokerError Turn → List Record
  | .ok (.record r) => [r]
  | _ => []

/-- A property of the state of a consumer that reading keeps, when the group stands at
`position`. -/
structure Keeps (k : Consumer) (position : Int → Option Int) (I : Fetch → Prop) : Prop where
  retain : ∀ f assigned, I f → I (f.retain assigned)
  opening : ∀ f p, I f → f.positions.any (·.1 == p) = false →
    I (f.setPosition p ((position p).getD 0))
  noting : ∀ f generation, I f → I { f with generation }
  take : ∀ f slot p start records last, I f → f.positions[slot]? = some (p, start) →
    Consecutive k.topic p (max start 0) records → records.getLast? = some last →
    I (f.take slot p records last)

section

variable {position : Int → Option Int} {I : Fetch → Prop} {f' : Fetch}

theorem Keeps.opens (hI : k.Keeps position I) {assigned : List Int}
    (h : Opens position assigned f f') (hf : I f) : I f' := by
  induction h with
  | refl => exact hf
  | step _ _ hnone ih => exact hI.opening _ _ ih hnone

theorem Keeps.synced (hI : k.Keeps position I) {ok : Bool} (h : Synced position f ok f')
    (hf : I f) : I f' := by
  cases h with
  | same => exact hf
  | broken hopens => exact hI.opens hopens (hI.retain f _ hf)
  | renewed hopens => exact hI.noting _ _ (hI.opens hopens (hI.retain f _ hf))

/-- Behind a turn the property holds of what was there before the record was handed out. -/
theorem Keeps.turned (hI : k.Keeps position I) {result : Except BrokerError Turn}
    (h : k.Turned position f result f') (hf : I f) :
    I { f' with buffer := handed result ++ f'.buffer } := by
  cases h with
  | failed hsynced => exact hI.synced hsynced hf
  | @record before r rest hsynced hbuffer =>
    show I { before with buffer := r :: rest }
    rw [← hbuffer]
    exact hI.synced hsynced hf
  | filled hsynced hslot hrecords hlast =>
    exact hI.take _ _ _ _ _ _ (hI.synced hsynced hf) hslot hrecords hlast
  | idle hsynced => exact hI.synced hsynced hf

end

/-! ## Committing -/

/-- A position behind a commit was there before, or is the one committed. -/
def Steps (group topic : String) (offsets : List (Int × Int)) (before after : Positions) : Prop :=
  ∀ group' topic' p n, after group' topic' p = some n →
    before group' topic' p = some n ∨
      group' = group ∧ topic' = topic ∧ ∃ offset, (p, offset) ∈ offsets ∧ n = offset + 1

/-- One of the offsets is committed: the position is set to the next one, or it is further
already. -/
theorem Steps.advance {group topic : String} {offsets : List (Int × Int)}
    {before after : Positions} (h : Steps group topic offsets before after) {p offset : Int}
    (hoffset : (p, offset) ∈ offsets) :
    Steps group topic offsets before (after.advance group topic p (offset + 1)) := by
  intro group' topic' p' n hn
  unfold Positions.advance at hn
  split at hn
  · next hkey =>
    obtain ⟨rfl, rfl, rfl⟩ := hkey
    have hmax := Option.some.inj hn
    cases hold : after group' topic' p' with
    | none =>
      rw [hold] at hmax
      simp only [Option.getD_none, Int.max_self] at hmax
      exact .inr ⟨rfl, rfl, offset, hoffset, hmax.symm⟩
    | some old =>
      rw [hold] at hmax
      simp only [Option.getD_some] at hmax
      rcases Int.le_total old (offset + 1) with hle | hle
      · rw [Int.max_eq_right hle] at hmax
        exact .inr ⟨rfl, rfl, offset, hoffset, hmax.symm⟩
      · rw [Int.max_eq_left hle] at hmax
        exact h _ _ _ _ (hmax ▸ hold)
  · exact h _ _ _ _ hn

/-- A commit moves positions of the consumer's group and topic only, and only to where the offsets
say, whether it succeeds or not. -/
theorem ensures_commitAll (assigned : List Int) (offsets : List (Int × Int)) (all : List (Int × Int))
    (hall : ∀ o ∈ offsets, o ∈ all) (rejected : Option Int) (s s' : σ) (hs' : Sound s')
    (hissued : issued s ≤ issued s')
    (hsteps : Steps k.group k.topic all (position s) (position s')) :
    Ensures (k.commitAll assigned offsets rejected) s' fun _ after =>
      Sound after ∧ issued s ≤ issued after ∧
        Steps k.group k.topic all (position s) (position after) := by
  induction offsets generalizing rejected s' with
  | nil => exact ⟨hs', hissued, hsteps⟩
  | cons first rest ih =>
    obtain ⟨p, offset⟩ := first
    have hrest : ∀ o ∈ rest, o ∈ all := fun o ho => hall o (List.mem_cons_of_mem _ ho)
    unfold commitAll
    split
    -- the partition is assigned, and the store may still refuse
    · refine (LawfulStore.commit_advances k.group k.topic p (offset + 1) s' hs').bind ?_ ?_
      · rintro _ after ⟨hsound, hle, hposition⟩
        apply ih hrest rejected after hsound (Nat.le_trans hissued hle)
        rw [hposition]
        exact hsteps.advance (hall _ List.mem_cons_self)
      · rintro _ after ⟨hsound, hle, hposition⟩
        exact ⟨hsound, Nat.le_trans hissued hle, hposition ▸ hsteps⟩
    · exact ih hrest _ s' hs' hissued hsteps

theorem ensures_commit (h : Sound s) (now timeout : Nat) (offsets : List (Int × Int)) :
    Ensures (k.commit now timeout offsets) s fun _ after =>
      Sound after ∧ issued s ≤ issued after ∧
        Steps k.group k.topic offsets (position s) (position after) := by
  have hstart : Steps k.group k.topic offsets (position s) (position s) :=
    fun _ _ _ _ hn => .inl hn
  unfold commit
  refine (ensures_assignment h now timeout).bind ?_ ?_
  · rintro ⟨_, assigned⟩ s' hmoved
    refine Ensures.bind (ensures_commitAll assigned offsets offsets (fun _ ho => ho) none s s'
      hmoved.sound hmoved.issued_le (hmoved.position_eq ▸ hstart)) ?_ (fun _ _ hafter => hafter)
    intro rejected after hafter
    cases rejected <;> exact hafter
  · intro _ s' hmoved
    exact ⟨hmoved.sound, hmoved.issued_le, hmoved.position_eq ▸ hstart⟩

end Consumer

end WorkQueue
