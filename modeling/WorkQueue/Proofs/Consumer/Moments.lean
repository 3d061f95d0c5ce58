import WorkQueue.Proofs.Consumer.Fills

/-!
# While the assignment stays

As long as a consumer keeps its partitions, nothing but a fetch changes its positions and its cursor.
What else happens are calls to the store, its own and those of others, and changes of what it has
buffered and of the generation it has noted. So whatever happens is a list of moments of three kinds.

## Main definitions

* `Moment`, `Consumer.behind`: what may happen, and what it leaves
* `Consumer.fills`: the fetches among it

## Main statements

* `Consumer.fetches_of_fills`: what is known of each of these fetches
* `Consumer.ensures_moments`: a turn that leaves the assignment as it is consists of such moments
-/

namespace WorkQueue

open StoreView

/-- What happens around a consumer while its assignment stays. -/
inductive Moment where
  /-- Anybody calls the store. -/
  | call (call : StoreCall)
  /-- The consumer hands out what it has buffered, or notes a generation that leaves it its
  partitions. -/
  | elsewhere (generation : Option Nat) (buffer : List Record)
  /-- The consumer fetches, while others make calls in front of each of its reads. -/
  | fetch (others : List (List StoreCall))

namespace Fetch

variable {f f' : Fetch}

theorem length_assigned : f.assigned.length = f.positions.length := List.length_map _

/-- What is known of positions of which some have been dropped and others opened. -/
structure Reopened (f f' : Fetch) : Prop where
  ascending : Ascending f'.positions
  cursor_eq : f'.cursor = f.cursor
  old_or_new : ∀ entry ∈ f'.positions, entry ∈ f.positions ∨ f.position? entry.1 = none

namespace Reopened

theorem refl (hf : Ascending f.positions) : f.Reopened f := ⟨hf, rfl, fun _ => .inl⟩

theorem retain (hf : Ascending f.positions) (assigned : List Int) :
    f.Reopened (f.retain assigned) :=
  ⟨hf.filter _, rfl, fun _ hentry => .inl (List.mem_filter.mp hentry).1⟩

theorem opening (h : f.Reopened f') {p : Int} (hnone : f.position? p = none) (n : Int) :
    f.Reopened (f'.setPosition p n) := by
  refine ⟨ascending_insertPosition _ _ h.ascending, h.cursor_eq, fun entry hentry => ?_⟩
  rcases mem_insertPosition hentry with heq | hold
  · exact .inr (congrArg (·.1) heq ▸ hnone)
  · exact h.old_or_new entry hold

/-- If these are positions of the same partitions, none has been dropped or opened. -/
theorem positions_eq (h : f.Reopened f') (hf : Ascending f.positions)
    (hassigned : f'.assigned = f.assigned) : f'.positions = f.positions := by
  have hold : ∀ entry ∈ f'.positions, entry ∈ f.positions := fun entry hentry => by
    have hkey : entry.1 ∈ f.assigned := hassigned ▸ List.mem_map_of_mem hentry
    obtain ⟨old, hmem, hkey⟩ := List.mem_map.mp hkey
    refine (h.old_or_new entry hentry).resolve_right fun hnone => ?_
    rw [← hkey, position?, lookup_of_mem hf hmem] at hnone
    cases hnone
  have hlength : f'.positions.length = f.positions.length := by
    rw [← length_assigned, hassigned, length_assigned]
  refine List.ext_getElem hlength fun i hi hi' => ?_
  -- at each place stand two positions of one partition, which is found once
  have hkey : f'.positions[i].1 = f.positions[i].1 := by
    have hplace := congrArg (·[i]?) hassigned
    simpa [assigned, hi, hi'] using hplace
  have hnew : f.positions.lookup f'.positions[i].1 = some f'.positions[i].2 :=
    lookup_of_mem hf (hold _ (List.getElem_mem hi))
  have hmine : f.positions.lookup f.positions[i].1 = some f.positions[i].2 :=
    lookup_of_mem hf (List.getElem_mem hi')
  rw [hkey, hmine] at hnew
  exact Prod.ext hkey (Option.some.inj hnew).symm

end Reopened

end Fetch

namespace Fill.Took

variable {σ : Type} {x : Fill σ} {w slot : Nat}

theorem length_eq (h : x.Took w slot) :
    x.after.1.positions.length = x.before.1.positions.length := by
  rw [← Fetch.length_assigned, h.assigned_eq, Fetch.length_assigned]

theorem cursor_lt (h : x.Took w slot) :
    x.after.1.cursor < x.after.1.positions.length := by
  have hslot := Fetch.lt_of_mem_slots slot (List.mem_of_getElem? h.asked)
  rw [h.length_eq, h.cursor_eq]
  exact Nat.mod_lt _ (by omega)

end Fill.Took

namespace Consumer

variable {σ : Type} [LogStore σ]

/-- The fetches of a consumer, one after the other. -/
def fills (k : Consumer) : List Moment → Fetch → σ → List (Fill σ)
  | [], _, _ => []
  | .call call :: rest, f, s => k.fills rest f (call.on s)
  | .elsewhere generation buffer :: rest, f, s => k.fills rest { f with generation, buffer } s
  | .fetch others :: rest, f, s =>
    let x := k.fillAmid others f s
    x :: k.fills rest x.after.1 x.after.2

/-- Consumer and store behind some moments. -/
def behind (k : Consumer) : List Moment → Fetch → σ → Fetch × σ
  | [], f, s => (f, s)
  | .call call :: rest, f, s => k.behind rest f (call.on s)
  | .elsewhere generation buffer :: rest, f, s => k.behind rest { f with generation, buffer } s
  | .fetch others :: rest, f, s =>
    let x := k.fillAmid others f s
    k.behind rest x.after.1 x.after.2

variable {k : Consumer} {f f' : Fetch} {s s' : σ}

/-! ## The fetches -/

section

variable [ThoroughStore σ]

theorem Fetches.assigned_eq {x : Fill σ} (h : k.Fetches x) :
    x.after.1.assigned = x.before.1.assigned := by
  rcases h.took with heq | ⟨w, slot, htook⟩
  · rw [heq]
  · exact htook.assigned_eq

theorem Fetches.cursor_lt {x : Fill σ} (h : k.Fetches x)
    (hcursor : x.before.1.cursor < x.before.1.positions.length) :
    x.after.1.cursor < x.after.1.positions.length := by
  rcases h.took with heq | ⟨w, slot, htook⟩
  · rw [heq]
    exact hcursor
  · exact htook.cursor_lt

/-- Each fetch is one of the consumer with the same assignment, and those behind it are the ones
that it goes on with. -/
theorem fetches_of_fills (hf : Fetch.Ascending f.positions) (hs : Sound s) {moments : List Moment}
    {earlier later : List (Fill σ)} {x : Fill σ}
    (h : k.fills moments f s = earlier ++ x :: later) :
    k.Fetches x ∧ x.before.1.assigned = f.assigned ∧
      (f.cursor < f.positions.length → x.before.1.cursor < x.before.1.positions.length) ∧
      ∃ moments', later = k.fills moments' x.after.1 x.after.2 := by
  induction moments generalizing f s earlier with
  | nil => simp [fills] at h
  | cons moment rest ih =>
    cases moment with
    | call call => exact ih hf (call.sound_on hs) h
    | elsewhere generation buffer => exact ih (f := { f with generation, buffer }) hf hs h
    | fetch others =>
      have hfetches := k.fetches_fillAmid hf hs others
      cases earlier with
      | nil =>
        obtain ⟨rfl, rfl⟩ := List.cons.inj h
        exact ⟨hfetches, rfl, fun h => h, rest, rfl⟩
      | cons first earlier =>
        obtain ⟨hx, hassigned, hcursor, hmore⟩ :=
          ih hfetches.ascending_after hfetches.sound_after (List.cons.inj h).2
        exact ⟨hx, hassigned.trans hfetches.assigned_eq, hcursor ∘ hfetches.cursor_lt, hmore⟩

end

/-! ## Turns -/

/-- Positions are dropped and opened in front of a fetch, and the cursor stays. -/
theorem ensures_reopened (hf : Fetch.Ascending f.positions) (now timeout : Nat) :
    Ensures (k.sync now timeout) (f, s) fun _ x => Reached AnyCall s x.2 ∧ f.Reopened x.1 := by
  have rule : k.TurnRule now timeout (fun f' s' => f' = f ∧ s' = s)
      (fun _ told f' s' => Reached AnyCall s s' ∧ f.Reopened f' ∧
        ∀ p ∈ told, f'.position? p = none → f.position? p = none)
      (fun f' s' => Reached AnyCall s s' ∧ f.Reopened f')
      (fun result f' s' => ∀ e, result = .error e → Reached AnyCall s s' ∧ f.Reopened f') := by
    constructor
    case told =>
      rintro f' s' ⟨rfl, rfl⟩
      have hcalls : Calls AnyCall (k.assignment now timeout : StoreM σ _) :=
        k.calls_assignment trivial
      apply (hcalls s').mono
      intro result s' hs'
      rcases result with e | ⟨generation, told⟩
      · exact fun _ _ => ⟨hs', .refl hf⟩
      · dsimp only
        split
        · exact ⟨hs', .refl hf⟩
        · refine ⟨hs', .retain hf told, fun p hp hnone => ?_⟩
          simpa [hp] using hnone
    case opened =>
      intro generation told f' s₁ p ⟨hreached, hopened, hkept⟩ hp hany
      have hcalls : Calls AnyCall (LogStore.committed k.group k.topic p : StoreM σ _) :=
        calls_committed trivial
      apply (hcalls s₁).mono
      intro result s' hs'
      cases result with
      | error e => exact fun _ _ => ⟨hreached.trans hs', hopened⟩
      | ok position =>
        have hnone := hkept p hp (Fetch.lookup_of_any hany)
        refine ⟨hreached.trans hs', hopened.opening hnone _, fun q hq hqnone => ?_⟩
        rw [Fetch.position?_setPosition] at hqnone
        split at hqnone
        · cases hqnone
        · exact hkept q hq hqnone
    case noted =>
      exact fun _ _ _ _ ⟨hreached, hopened, _⟩ =>
        ⟨hreached, hopened.ascending, hopened.cursor_eq, hopened.old_or_new⟩
    case handed => exact fun _ _ _ _ _ _ _ hresult => by cases hresult
    case fetched =>
      intro f' s₁ slot p start ⟨hreached, hopened⟩ _ _
      have hcalls : Calls AnyCall (LogStore.read k.topic p start fetchBatch : StoreM σ _) :=
        calls_read trivial
      apply (hcalls s₁).mono
      intro result s' hs'
      cases result with
      | error e => exact fun _ _ => ⟨hreached.trans hs', hopened⟩
      | ok records =>
        dsimp only
        split
        · exact ⟨hreached.trans hs', hopened⟩
        · exact fun _ hresult => by cases hresult
    case idled => exact fun _ _ _ _ _ hresult => by cases hresult
  apply (rule.ensures_sync ⟨rfl, rfl⟩).mono
  intro result x hx
  cases result with
  | error e => exact hx e rfl
  | ok _ => exact hx

/-- Calls, and then whatever leaves positions and cursor, are moments. -/
theorem exists_behind (hreached : Reached AnyCall s s') (hpositions : f'.positions = f.positions)
    (hcursor : f'.cursor = f.cursor) (rest : List Moment) :
    ∃ moments, k.behind moments f s = k.behind rest f' s' := by
  induction hreached using Relation.ReflTransGen.head_induction_on with
  | refl =>
    refine ⟨.elsewhere f'.generation f'.buffer :: rest, ?_⟩
    have hsame : { f with generation := f'.generation, buffer := f'.buffer } = f' := by
      rw [← hpositions, ← hcursor]
    rw [behind, hsame]
  | head hstep _ ih =>
    obtain ⟨call, -, rfl⟩ := hstep
    obtain ⟨moments, hmoments⟩ := ih
    exact ⟨.call call :: moments, hmoments⟩

/-- A turn behind which a consumer has the same partitions as in front of it. -/
theorem ensures_moments [ThoroughStore σ] (hf : Fetch.Ascending f.positions) (hs : Sound s)
    (now timeout : Nat) :
    Ensures (k.turn now timeout) (f, s) fun _ x =>
      x.1.assigned = f.assigned → ∃ moments, k.behind moments f s = x := by
  unfold turn
  cases hclosed : k.closed with
  | true =>
    rw [if_pos rfl]
    exact fun _ => ⟨[], rfl⟩
  | false =>
    rw [if_neg (by simp), ensures_bind]
    apply (ensures_reopened hf now timeout).mono
    rintro result ⟨f', s'⟩ ⟨hreached, hopened⟩
    -- what follows does not change which partitions these are
    have hmoments : ∀ rest, f'.assigned = f.assigned →
        ∃ moments, k.behind moments f s = k.behind rest f' s' := fun rest hassigned =>
      exists_behind hreached (hopened.positions_eq hf hassigned) hopened.cursor_eq rest
    cases result with
    | error e => exact hmoments []
    | ok _ =>
      dsimp only
      rw [ensures_bind, FetchM.ensures_fetch]
      dsimp only
      cases hbuffer : f'.buffer with
      | cons r rest =>
        rw [ensures_bind, FetchM.ensures_modifyFetch]
        exact hmoments [.elsewhere f'.generation rest]
      | nil =>
        have hfetches := k.fetches_fillAmid hopened.ascending (hreached.sound hs) []
        have hfill : Ensures k.fill (f', s') fun _ x =>
            x.1.assigned = f.assigned → ∃ moments, k.behind moments f s = x := by
          show (k.fill.on f' s').2.1.assigned = _ → ∃ moments, _ = (k.fill.on f' s').2
          rw [k.fillAmid_nil]
          exact fun hassigned => hmoments [.fetch []] (hfetches.assigned_eq.symm.trans hassigned)
        rw [ensures_bind]
        apply hfill.mono
        intro result x hx
        rcases result with e | filled
        · exact hx
        · cases filled <;> exact hx

end Consumer

end WorkQueue
