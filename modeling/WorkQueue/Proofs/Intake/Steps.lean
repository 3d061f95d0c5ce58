import WorkQueue.Intake.Loops

/-!
# What an intake loop does in a step

What a step of a loop can be is said once, together with what is noted of it: the loop takes a tick,
polls, rests in front of a record, offers one to the channel, pauses or stops.

## Main definitions

* `Deed`: what is noted of a loop
* `Primary.Does`, `Delayed.Does`: the steps

## Main statements

* `Primary.does_of_step?`, `Delayed.does_of_step?`: a step does what is noted of it
-/

namespace WorkQueue

/-! ## Offers -/

/-- An offer puts the record at the end of an open channel, is refused by a closed one, or is put
off. -/
theorem Channel.offer_cases (c : Channel) (source : Source) (d : Delivery) :
    (∃ c', c.offer source d = .accepted c' ∧ c.closed = false ∧ c'.closed = false ∧
      c'.buffer = c.buffer ++ [d]) ∨
    (c.offer source d = .refused ∧ c.closed = true) ∨
    (∃ c', c.offer source d = .inLine c' ∧ c'.buffer = c.buffer ∧ c'.closed = c.closed) ∨
    c.offer source d = .blocked := by
  unfold Channel.offer
  cases hclosed : c.closed with
  | true => exact .inr (.inl ⟨if_pos rfl, rfl⟩)
  | false =>
    rw [if_neg (by simp)]
    split
    · exact .inl ⟨_, rfl, rfl, rfl, rfl⟩
    · split
      · exact .inr (.inr (.inr rfl))
      · exact .inr (.inr (.inl ⟨_, rfl, rfl, rfl⟩))

/-! ## Deeds -/

/-- Something that an intake loop does. -/
inductive Deed where
  /-- It takes a tick. -/
  | ticked
  /-- A poll of its consumer has come to an end. -/
  | polled (result : Except BrokerError (Option Record))
  /-- A rest in front of a record, until `wake`, is over. -/
  | rested (wake : Nat)
  /-- The channel has accepted a delivery. -/
  | pushed (d : Delivery)

/-- What is noted of a step of a poll. -/
def PollStep.deeds : PollStep → List Deed
  | done result => [.polled result]
  | more _ => []

/-- What is noted of an offer. -/
def Offer.deeds (d : Delivery) : Offer → List Deed
  | accepted _ => [.pushed d]
  | _ => []

section

variable {σ : Type} [LogStore σ]

/-- What a step of the primary loop does. -/
def Primary.deeds (s : IntakeSettings) (fired : Bool) (loop : Primary) (f : Feed σ) : List Deed :=
  match loop with
  | polling p =>
    if fired || f.channel.closed then []
    else (f.cluster.poll? s.place p).elim [] (·.1.deeds)
  | pushing r =>
    if fired then [] else (f.channel.offer .primary ⟨s.consumer, r⟩).deeds ⟨s.consumer, r⟩
  | _ => []

/-- What a step of the delayed loop does. -/
def Delayed.deeds (s : IntakeSettings) (fired : Bool) (d : Delayed) (f : Feed σ) : List Deed :=
  match d.phase with
  | .ticking => if fired || f.channel.closed then [] else [.ticked]
  | .draining _ p => if fired then [] else (f.cluster.poll? s.place p).elim [] (·.1.deeds)
  | .spacing _ _ wake => if fired then [] else [.rested wake]
  | .releasing (r :: _) _ =>
    if fired then [] else (f.channel.offer .delayed ⟨s.consumer, r⟩).deeds ⟨s.consumer, r⟩
  | _ => []

/-! ## Steps -/

variable {s : IntakeSettings} {fired : Bool} {f f' : Feed σ}

/-- What a step of the primary loop is. -/
inductive Primary.Does (s : IntakeSettings) (fired : Bool) (f : Feed σ) :
    Primary → List Deed → Primary → Feed σ → Prop where
  /-- The loop stops because of the token or because the receiver is gone. -/
  | stop {loop : Primary} {channel : Channel} (hcause : fired = true ∨ f.channel.closed = true)
      (hbuffer : channel.buffer = f.channel.buffer) (hclosed : channel.closed = f.channel.closed) :
      Does s fired f loop [] stopped { f with channel }
  | start : Does s fired f ready [] (polling (f.cluster.beginPoll s.pollTimeout)) f
  | pollOn {p p' : Polling} {cluster : Cluster σ}
      (hpoll : f.cluster.poll? s.place p = some (.more p', cluster)) :
      Does s fired f (polling p) [] (polling p') { f with cluster }
  | poll {p : Polling} {result : Except BrokerError (Option Record)} {cluster : Cluster σ}
      (hpoll : f.cluster.poll? s.place p = some (.done result, cluster)) :
      Does s fired f (polling p) [.polled result] (afterPoll cluster.now s.errorPause result)
        { f with cluster }
  | push {r : Record} {channel : Channel} (hfired : fired = false)
      (hopen : f.channel.closed = false)
      (hbuffer : channel.buffer = f.channel.buffer ++ [⟨s.consumer, r⟩])
      (hclosed : channel.closed = false) :
      Does s fired f (pushing r) [.pushed ⟨s.consumer, r⟩] ready { f with channel }
  | lineUp {r : Record} {channel : Channel} (hbuffer : channel.buffer = f.channel.buffer)
      (hclosed : channel.closed = f.channel.closed) :
      Does s fired f (pushing r) [] (pushing r) { f with channel }
  | resume {wake : Nat} (hwake : wake ≤ f.cluster.now) : Does s fired f (pausing wake) [] ready f

/-- What a step of the delayed loop is. -/
inductive Delayed.Does (s : IntakeSettings) (fired : Bool) (f : Feed σ) (due : Nat) :
    DelayedPhase → List Deed → Delayed → Feed σ → Prop where
  /-- The loop stops because of the token or because the receiver is gone. -/
  | stop {phase : DelayedPhase} {channel : Channel}
      (hcause : fired = true ∨ f.channel.closed = true)
      (hbuffer : channel.buffer = f.channel.buffer) (hclosed : channel.closed = f.channel.closed) :
      Does s fired f due phase [] ⟨due, .stopped⟩ { f with channel }
  | tick (hdue : due ≤ f.cluster.now) :
      Does s fired f due .ticking [.ticked]
        ⟨nextTick s.period due f.cluster.now, drain f.cluster.now []⟩ f
  | pollOn {batch : List Record} {p p' : Polling} {cluster : Cluster σ}
      (hpoll : f.cluster.poll? s.place p = some (.more p', cluster)) :
      Does s fired f due (.draining batch p) [] ⟨due, .draining batch p'⟩ { f with cluster }
  | poll {batch : List Record} {p : Polling} {result : Except BrokerError (Option Record)}
      {cluster : Cluster σ} (hpoll : f.cluster.poll? s.place p = some (.done result, cluster)) :
      Does s fired f due (.draining batch p) [.polled result]
        ⟨due, afterPoll f.cluster.now s.period batch result⟩ { f with cluster }
  | rest {batch : List Record} {r : Record} {wake : Nat} (hwake : wake ≤ f.cluster.now) :
      Does s fired f due (.spacing batch r wake) [.rested wake]
        ⟨due, drain f.cluster.now (batch ++ [r])⟩ f
  | push {r : Record} {batch : List Record} {failure : Option BrokerError} {channel : Channel}
      (hfired : fired = false) (hopen : f.channel.closed = false)
      (hbuffer : channel.buffer = f.channel.buffer ++ [⟨s.consumer, r⟩])
      (hclosed : channel.closed = false) :
      Does s fired f due (.releasing (r :: batch) failure) [.pushed ⟨s.consumer, r⟩]
        ⟨due, .releasing batch failure⟩ { f with channel }
  | lineUp {batch : List Record} {failure : Option BrokerError} {channel : Channel}
      (hbuffer : channel.buffer = f.channel.buffer) (hclosed : channel.closed = f.channel.closed) :
      Does s fired f due (.releasing batch failure) [] ⟨due, .releasing batch failure⟩
        { f with channel }
  | released {failure : Option BrokerError} :
      Does s fired f due (.releasing [] failure) []
        ⟨due, afterRelease f.cluster.now s.errorPause failure⟩ f
  | resume {wake : Nat} (hwake : wake ≤ f.cluster.now) :
      Does s fired f due (.pausing wake) [] ⟨due, .ticking⟩ f

/-- Every step of the primary loop is of this kind, and does what is noted of it. -/
theorem Primary.does_of_step? {loop loop' : Primary}
    (h : loop.step? s fired f = some (loop', f')) :
    Does s fired f loop (deeds s fired loop f) loop' f' := by
  cases loop with
  | stopped => cases h
  | ready =>
    simp only [step?] at h
    split at h
    · next hcause =>
      obtain ⟨rfl, rfl⟩ := Prod.mk.inj (Option.some.inj h)
      exact .stop (by simpa using hcause) rfl rfl
    · obtain ⟨rfl, rfl⟩ := Prod.mk.inj (Option.some.inj h)
      exact .start
  | polling p =>
    simp only [step?] at h
    simp only [deeds]
    split at h
    · next hcause =>
      obtain ⟨rfl, rfl⟩ := Prod.mk.inj (Option.some.inj h)
      rw [if_pos hcause]
      exact .stop (by simpa using hcause) rfl rfl
    · next hgoes =>
      rw [if_neg hgoes]
      split at h
      · cases h
      · next hpoll =>
        obtain ⟨rfl, rfl⟩ := Prod.mk.inj (Option.some.inj h)
        rw [hpoll]
        exact .pollOn hpoll
      · next hpoll =>
        obtain ⟨rfl, rfl⟩ := Prod.mk.inj (Option.some.inj h)
        rw [hpoll]
        exact .poll hpoll
  | pushing r =>
    simp only [step?] at h
    simp only [deeds]
    split at h
    · next hfired =>
      obtain ⟨rfl, rfl⟩ := Prod.mk.inj (Option.some.inj h)
      rw [if_pos hfired]
      exact .stop (.inl hfired) rfl rfl
    · next hfired =>
      rw [if_neg hfired]
      -- an offer that is put off and already waits in line is no step
      rcases f.channel.offer_cases .primary ⟨s.consumer, r⟩ with
        ⟨c, hoffer, hopen, hclosed, hbuffer⟩ | ⟨hoffer, hgone⟩ |
        ⟨c, hoffer, hbuffer, hclosed⟩ | hoffer <;> simp only [hoffer] at h ⊢
      · obtain ⟨rfl, rfl⟩ := Prod.mk.inj (Option.some.inj h)
        exact .push (Bool.eq_false_iff.mpr hfired) hopen hbuffer hclosed
      · obtain ⟨rfl, rfl⟩ := Prod.mk.inj (Option.some.inj h)
        exact .stop (.inr hgone) rfl rfl
      · obtain ⟨rfl, rfl⟩ := Prod.mk.inj (Option.some.inj h)
        exact .lineUp hbuffer hclosed
      · cases h
  | pausing wake =>
    simp only [step?] at h
    split at h
    · next hfired =>
      obtain ⟨rfl, rfl⟩ := Prod.mk.inj (Option.some.inj h)
      exact .stop (.inl hfired) rfl rfl
    · split at h
      · next hwake =>
        obtain ⟨rfl, rfl⟩ := Prod.mk.inj (Option.some.inj h)
        exact .resume hwake
      · cases h

/-- Every step of the delayed loop is of this kind, and does what is noted of it. -/
theorem Delayed.does_of_step? {d d' : Delayed} (h : d.step? s fired f = some (d', f')) :
    Does s fired f d.due d.phase (deeds s fired d f) d' f' := by
  obtain ⟨due, phase⟩ := d
  cases phase with
  | stopped => cases h
  | ticking =>
    simp only [step?] at h
    simp only [deeds]
    split at h
    · next hcause =>
      obtain ⟨rfl, rfl⟩ := Prod.mk.inj (Option.some.inj h)
      rw [if_pos hcause]
      exact .stop (by simpa using hcause) rfl rfl
    · next hgoes =>
      rw [if_neg hgoes]
      split at h
      · next hdue =>
        obtain ⟨rfl, rfl⟩ := Prod.mk.inj (Option.some.inj h)
        exact .tick hdue
      · cases h
  | draining batch p =>
    simp only [step?] at h
    simp only [deeds]
    split at h
    · next hfired =>
      obtain ⟨rfl, rfl⟩ := Prod.mk.inj (Option.some.inj h)
      rw [if_pos hfired]
      exact .stop (.inl hfired) rfl rfl
    · next hfired =>
      rw [if_neg hfired]
      split at h
      · cases h
      · next hpoll =>
        obtain ⟨rfl, rfl⟩ := Prod.mk.inj (Option.some.inj h)
        rw [hpoll]
        exact .pollOn hpoll
      · next hpoll =>
        obtain ⟨rfl, rfl⟩ := Prod.mk.inj (Option.some.inj h)
        rw [hpoll]
        exact .poll hpoll
  | spacing batch r wake =>
    simp only [step?] at h
    simp only [deeds]
    split at h
    · next hfired =>
      obtain ⟨rfl, rfl⟩ := Prod.mk.inj (Option.some.inj h)
      rw [if_pos hfired]
      exact .stop (.inl hfired) rfl rfl
    · next hfired =>
      rw [if_neg hfired]
      split at h
      · next hwake =>
        obtain ⟨rfl, rfl⟩ := Prod.mk.inj (Option.some.inj h)
        exact .rest hwake
      · cases h
  | releasing batch failure =>
    cases batch with
    | nil =>
      simp only [step?] at h
      obtain ⟨rfl, rfl⟩ := Prod.mk.inj (Option.some.inj h)
      exact .released
    | cons r rest =>
      simp only [step?] at h
      simp only [deeds]
      split at h
      · next hfired =>
        obtain ⟨rfl, rfl⟩ := Prod.mk.inj (Option.some.inj h)
        rw [if_pos hfired]
        exact .stop (.inl hfired) rfl rfl
      · next hfired =>
        rw [if_neg hfired]
        rcases f.channel.offer_cases .delayed ⟨s.consumer, r⟩ with
          ⟨c, hoffer, hopen, hclosed, hbuffer⟩ | ⟨hoffer, hgone⟩ |
          ⟨c, hoffer, hbuffer, hclosed⟩ | hoffer <;> simp only [hoffer] at h ⊢
        · obtain ⟨rfl, rfl⟩ := Prod.mk.inj (Option.some.inj h)
          exact .push (Bool.eq_false_iff.mpr hfired) hopen hbuffer hclosed
        · obtain ⟨rfl, rfl⟩ := Prod.mk.inj (Option.some.inj h)
          exact .stop (.inr hgone) rfl rfl
        · obtain ⟨rfl, rfl⟩ := Prod.mk.inj (Option.some.inj h)
          exact .lineUp hbuffer hclosed
        · cases h
  | pausing wake =>
    simp only [step?] at h
    split at h
    · next hfired =>
      obtain ⟨rfl, rfl⟩ := Prod.mk.inj (Option.some.inj h)
      exact .stop (.inl hfired) rfl rfl
    · split at h
      · next hwake =>
        obtain ⟨rfl, rfl⟩ := Prod.mk.inj (Option.some.inj h)
        exact .resume hwake
      · cases h

end

end WorkQueue
