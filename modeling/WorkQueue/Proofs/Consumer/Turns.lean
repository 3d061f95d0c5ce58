import WorkQueue.Proofs.Store.Calls

/-!
# The rule of a turn

A turn of reading is a loop inside a loop: partitions are opened one after the other, and then asked
one after the other. What holds behind a turn is therefore shown with two invariants, one for each
loop, and one condition for each call to the store and each change of the consumer's state.

## Main definitions

* `Consumer.TurnRule`: the conditions

## Main statements

* `Consumer.TurnRule.ensures`: they are enough
* `Consumer.calls_turn`: the calls of a turn
-/

namespace WorkQueue

variable {σ : Type} [LogStore σ]

namespace Consumer

/-- From `before`, `after` holds behind a turn: `opening` holds while partitions of a generation are
opened, and `ready` once the positions belong to the latest generation. -/
structure TurnRule (k : Consumer) (now timeout : Nat) (before : Fetch → σ → Prop)
    (opening : Nat → List Int → Fetch → σ → Prop) (ready : Fetch → σ → Prop)
    (after : Except BrokerError Turn → Fetch → σ → Prop) : Prop where
  told : ∀ f s, before f s → Ensures (k.assignment now timeout) s fun result s' =>
    match result with
    | .error e => after (.error e) f s'
    | .ok (generation, assigned) =>
      if f.generation = some generation then ready f s'
      else opening generation assigned (f.retain assigned) s'
  opened : ∀ generation assigned f s p, opening generation assigned f s → p ∈ assigned →
    f.positions.any (·.1 == p) = false →
    Ensures (LogStore.committed k.group k.topic p) s fun result s' =>
      match result with
      | .error e => after (.error e) f s'
      | .ok position => opening generation assigned (f.setPosition p (position.getD 0)) s'
  noted : ∀ generation assigned f s, opening generation assigned f s →
    ready { f with generation := some generation } s
  handed : ∀ f s r rest, ready f s → f.buffer = r :: rest →
    after (.ok (.record r)) { f with buffer := rest } s
  fetched : ∀ f s slot p start, ready f s → f.buffer = [] → f.positions[slot]? = some (p, start) →
    Ensures (LogStore.read k.topic p start fetchBatch) s fun result s' =>
      match result with
      | .error e => after (.error e) f s'
      | .ok records =>
        match records.getLast? with
        | none => ready f s'
        | some last => after (.ok .filled) (f.take slot p records last) s'
  idled : ∀ f s, ready f s → f.buffer = [] → after (.ok .idle) f s

namespace TurnRule

variable {k : Consumer} {now timeout : Nat} {before : Fetch → σ → Prop}
  {opening : Nat → List Int → Fetch → σ → Prop} {ready : Fetch → σ → Prop}
  {after : Except BrokerError Turn → Fetch → σ → Prop} {f : Fetch} {s : σ}

/-- Partitions are opened in turn, up to a failure of the store. -/
theorem ensures_openPositions (rule : k.TurnRule now timeout before opening ready after)
    {generation : Nat} {assigned : List Int} (rest : List Int) (hrest : ∀ p ∈ rest, p ∈ assigned)
    (h : opening generation assigned f s) :
    Ensures (k.openPositions rest) (f, s) fun result x =>
      match result with
      | .error e => after (.error e) x.1 x.2
      | .ok () => opening generation assigned x.1 x.2 := by
  induction rest generalizing f s with
  | nil => exact h
  | cons p rest ih =>
    have hmore : ∀ q ∈ rest, q ∈ assigned := fun q hq => hrest q (List.mem_cons_of_mem _ hq)
    unfold openPositions
    rw [ensures_bind, FetchM.ensures_fetch]
    dsimp only
    cases hany : f.positions.any (·.1 == p) with
    | true => exact ih hmore h
    | false =>
      rw [if_neg (by simp), ensures_bind, FetchM.ensures_store]
      apply (rule.opened generation assigned f s p h (hrest p List.mem_cons_self) hany).mono
      intro result s' hresult
      cases result with
      | error e => exact hresult
      | ok position =>
        dsimp only
        rw [ensures_bind, FetchM.ensures_modifyFetch]
        exact ih hmore hresult

theorem ensures_sync (rule : k.TurnRule now timeout before opening ready after) (h : before f s) :
    Ensures (k.sync now timeout) (f, s) fun result x =>
      match result with
      | .error e => after (.error e) x.1 x.2
      | .ok () => ready x.1 x.2 := by
  unfold sync
  rw [ensures_bind, FetchM.ensures_store]
  apply (rule.told f s h).mono
  intro result s' hresult
  cases result with
  | error e => exact hresult
  | ok found =>
    obtain ⟨generation, assigned⟩ := found
    dsimp only at hresult ⊢
    rw [ensures_bind, FetchM.ensures_fetch]
    dsimp only
    by_cases hsame : f.generation = some generation
    · rw [if_pos hsame] at hresult ⊢
      exact hresult
    · rw [if_neg hsame] at hresult ⊢
      rw [ensures_bind, FetchM.ensures_modifyFetch]
      refine (rule.ensures_openPositions assigned (fun _ hp => hp) hresult).bind ?_ ?_
      · exact fun _ x hopening => rule.noted generation assigned x.1 x.2 hopening
      · exact fun _ _ herror => herror

/-- Partitions are asked in turn, up to the first that has records. -/
theorem ensures_fillFrom (rule : k.TurnRule now timeout before opening ready after)
    (slots : List Nat) (h : ready f s) (hempty : f.buffer = []) :
    Ensures (k.fillFrom slots) (f, s) fun result x =>
      match result with
      | .error e => after (.error e) x.1 x.2
      | .ok true => after (.ok .filled) x.1 x.2
      | .ok false => after (.ok .idle) x.1 x.2 := by
  induction slots generalizing s with
  | nil => exact rule.idled f s h hempty
  | cons slot rest ih =>
    unfold fillFrom
    rw [ensures_bind, FetchM.ensures_fetch]
    dsimp only
    cases hslot : f.positions[slot]? with
    | none => exact ih h
    | some found =>
      obtain ⟨p, start⟩ := found
      dsimp only
      rw [ensures_bind, FetchM.ensures_store]
      apply (rule.fetched f s slot p start h hempty hslot).mono
      intro result s' hresult
      cases result with
      | error e => exact hresult
      | ok records =>
        dsimp only at hresult ⊢
        cases hlast : records.getLast? with
        | none =>
          rw [hlast] at hresult
          exact ih hresult
        | some last =>
          rw [hlast] at hresult
          exact hresult

/-- The conditions are enough. -/
theorem ensures (rule : k.TurnRule now timeout before opening ready after) (h : before f s) :
    Ensures (k.turn now timeout) (f, s) fun result x => after result x.1 x.2 := by
  unfold turn
  cases hclosed : k.closed with
  | true =>
    -- who has left is told the same by the heartbeat that is not sent any more
    have htold := rule.told f s h
    unfold assignment at htold
    rw [hclosed, if_pos rfl] at htold
    rw [if_pos rfl]
    exact htold
  | false =>
    rw [if_neg (by simp), ensures_bind]
    apply (rule.ensures_sync h).mono
    intro result ⟨f', s'⟩ hresult
    cases result with
    | error e => exact hresult
    | ok _ =>
      dsimp only at hresult ⊢
      rw [ensures_bind, FetchM.ensures_fetch]
      dsimp only
      -- records are fetched only when nothing is buffered
      cases hbuffer : f'.buffer with
      | cons r rest =>
        rw [ensures_bind, FetchM.ensures_modifyFetch]
        exact rule.handed f' s' r rest hresult hbuffer
      | nil =>
        unfold fill
        rw [ensures_bind, ensures_bind, FetchM.ensures_fetch]
        dsimp only
        apply (rule.ensures_fillFrom f'.slots hresult hbuffer).mono
        intro result x hx
        cases result with
        | error e => exact hx
        | ok filled => cases filled <;> exact hx

end TurnRule

/-- A turn asks who is there, where the group stands, and for records. -/
theorem calls_turn (k : Consumer) {allowed : StoreCall → Prop} {now timeout : Nat}
    (hbeat : allowed (.heartbeat now k.group k.topic k.id timeout))
    (hcommitted : ∀ p, allowed (.committed k.group k.topic p))
    (hread : ∀ p start, allowed (.read k.topic p start fetchBatch)) (f : Fetch) (s : σ) :
    Ensures (k.turn now timeout) (f, s) fun _ x => Reached allowed s x.2 := by
  have rule : k.TurnRule now timeout (fun _ s' => Reached allowed s s')
      (fun _ _ _ s' => Reached allowed s s') (fun _ s' => Reached allowed s s')
      (fun _ _ s' => Reached allowed s s') := by
    constructor
    case told =>
      intro f s₁ h
      apply (k.calls_assignment hbeat s₁).mono
      intro result s' hs'
      rcases result with e | ⟨generation, assigned⟩
      · exact h.trans hs'
      · dsimp only
        split <;> exact h.trans hs'
    case opened =>
      intro _ _ f s₁ p h _ _
      apply (calls_committed (hcommitted p) s₁).mono
      intro result s' hs'
      cases result <;> exact h.trans hs'
    case fetched =>
      intro f s₁ slot p start h _ _
      apply (calls_read (hread p start) s₁).mono
      intro result s' hs'
      rcases result with e | records
      · exact h.trans hs'
      · dsimp only
        cases records.getLast? <;> exact h.trans hs'
    case noted => exact fun _ _ _ _ h => h
    case handed => exact fun _ _ _ _ h _ => h
    case idled => exact fun _ _ h _ => h
  exact rule.ensures (.refl s)

end Consumer

end WorkQueue
