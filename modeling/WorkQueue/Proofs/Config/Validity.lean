import WorkQueue.Config.Setting
import WorkQueue.Proofs.Config.Variables

/-!
# What validation accepts

A configuration is sane if all of its names are there, its topics are different from each other, and
its counts are not zero. Validation rejects everything else, for a reason that holds, with one
exception: it does not look whether the name of the dead-letter topic is empty. Variables cannot set
such a name, so what they come to is accepted exactly if it is sane.

## Main definitions

* `Config.Sane`: what a configuration should be like
* `ConfigError.Holds`: what an error says of a configuration

## Main statements

* `Config.sane_iff`: a configuration is sane if no error holds of it
* `Config.mem_checks_iff`: the errors that validation looks for
* `Config.validate_iff`: which configurations it accepts, and why it rejects the others
-/

namespace WorkQueue

namespace Config

/-- The topics that are configured, one for each role. -/
def topics (c : Config) : List String :=
  c.primaryTopic :: c.delayedTopic :: c.deadLetterTopic.toList

/-- The names that every configuration has, with their fields. -/
def required (c : Config) : List (String × String) := [
  ("group_id", c.groupId), ("primary_topic", c.primaryTopic), ("delayed_topic", c.delayedTopic)]

/-- The names that should not be empty. -/
def names (c : Config) : List (String × String) :=
  c.required ++ c.deadLetterTopic.toList.map ("dead_letter_topic", ·)

/-- The counts and spans that should not be zero, with their fields. -/
def counts (c : Config) : List (String × Nat) := [
  ("max_parallel_tasks", c.maxParallelTasks), ("intake_capacity", c.intakeCapacity),
  ("delayed_base_ms", c.delayedBase.nanos), ("republish_attempts", c.republishAttempts)]

/-- What a configuration should be like. -/
structure Sane (c : Config) : Prop where
  named : ∀ entry ∈ c.names, entry.2 ≠ ""
  counted : ∀ entry ∈ c.counts, 0 < entry.2
  apart : c.topics.Nodup

end Config

/-- What an error says of a configuration. An unreadable variable is no fault of a configuration. -/
def ConfigError.Holds (c : Config) : ConfigError → Prop
  | .empty field => (field, "") ∈ c.names
  | .zero field => (field, 0) ∈ c.counts
  | .duplicateTopic topic => 2 ≤ c.topics.count topic
  | .invalidVariable _ _ => False

namespace Config

/-- A configuration is sane if no error holds of it. -/
theorem sane_iff {c : Config} : c.Sane ↔ ∀ e : ConfigError, ¬ e.Holds c := by
  constructor
  · rintro ⟨hnamed, hcounted, hapart⟩ e he
    cases e with
    | empty field => exact hnamed _ he rfl
    | zero field => exact Nat.lt_irrefl 0 (hcounted _ he)
    | duplicateTopic topic => exact Nat.not_le.mpr he (List.nodup_iff_count.mp hapart topic)
    | invalidVariable name value => exact he
  · intro h
    refine ⟨?_, ?_, List.nodup_iff_count.mpr fun topic => ?_⟩
    · rintro ⟨field, name⟩ hentry hname
      obtain rfl : name = "" := hname
      exact h (.empty field) hentry
    · rintro ⟨field, n⟩ hentry
      refine Nat.pos_of_ne_zero fun hn => ?_
      obtain rfl : n = 0 := hn
      exact h (.zero field) hentry
    · exact Nat.le_of_lt_succ (Nat.not_le.mp (h (.duplicateTopic topic)))

/-- The defaults are sane. -/
theorem sane_default : default.Sane := ⟨by decide, by decide, by decide⟩

/-! ## The checks of validation -/

/-- What validation looks for, in this order. -/
def checks (c : Config) : List (Bool × ConfigError) :=
  c.required.map (fun (field, name) => (name.isEmpty, .empty field)) ++
  c.counts.map (fun (field, n) => (n == 0, .zero field)) ++
  [(c.primaryTopic == c.delayedTopic, .duplicateTopic c.primaryTopic)] ++
  c.deadLetterTopic.toList.map fun topic =>
    (topic == c.primaryTopic || topic == c.delayedTopic, .duplicateTopic topic)

/-- One check in front of others. -/
theorem ite_eq_find? {p : Prop} [Decidable p] {found : Bool} {e : ConfigError}
    {rest : List (Bool × ConfigError)} {others : Option ConfigError} (hp : found = true ↔ p)
    (hothers : others = (rest.find? (·.1)).map (·.2)) :
    (if p then some e else others) = (((found, e) :: rest).find? (·.1)).map (·.2) := by
  by_cases h : p
  · rw [if_pos h, List.find?_cons_of_pos (hp.mpr h)]
    rfl
  · rw [if_neg h, List.find?_cons_of_neg fun hfound => h (hp.mp hfound), hothers]

theorem firstFault_eq (c : Config) : c.firstFault = (c.checks.find? (·.1)).map (·.2) := by
  unfold firstFault checks
  -- eight checks, whether there is a dead-letter topic or not
  repeat refine ite_eq_find? (by simp) ?_
  cases c.deadLetterTopic with
  | none => rfl
  | some t => exact ite_eq_find? (by simp) rfl

theorem two_le_count_cons {topic first : String} {rest : List String} :
    2 ≤ (first :: rest).count topic ↔ first = topic ∧ topic ∈ rest ∨ 2 ≤ rest.count topic := by
  rw [List.count_cons, ← List.one_le_count_iff]
  by_cases h : first = topic
  · simp only [h, beq_self_eq_true, if_true, true_and]
    omega
  · simp [h]

/-- A topic has two roles. -/
theorem two_le_count_topics_iff {c : Config} {topic : String} :
    2 ≤ c.topics.count topic ↔ c.primaryTopic = c.delayedTopic ∧ topic = c.primaryTopic ∨
      c.deadLetterTopic = some topic ∧ (topic = c.primaryTopic ∨ topic = c.delayedTopic) := by
  unfold topics
  rw [two_le_count_cons, two_le_count_cons, List.mem_cons]
  cases c.deadLetterTopic with
  | none => grind
  | some t => grind [two_le_count_cons]

/-- Validation looks for every error but one. -/
theorem mem_checks_iff {c : Config} {e : ConfigError} :
    (true, e) ∈ c.checks ↔ e.Holds c ∧ e ≠ .empty "dead_letter_topic" := by
  unfold checks
  cases e with
  | empty field =>
    -- the dead-letter topic is the one name that not every configuration has
    have hrequired : (field, "") ∈ c.required → field ≠ "dead_letter_topic" := by
      rintro h rfl
      simp [required] at h
    simp only [ConfigError.Holds, names, List.mem_append]
    constructor
    · intro h
      have hmem : (field, "") ∈ c.required := by simpa using h
      exact ⟨.inl hmem, fun heq => hrequired hmem (ConfigError.empty.inj heq)⟩
    · rintro ⟨h | h, hne⟩
      · exact .inl (.inl (.inl (by simpa using h)))
      · obtain ⟨_, -, heq⟩ := List.mem_map.mp h
        exact absurd (congrArg (ConfigError.empty ·.1) heq.symm) hne
  | zero field => simp [ConfigError.Holds]
  | duplicateTopic topic => simp [ConfigError.Holds, two_le_count_topics_iff]
  | invalidVariable name value => simp [ConfigError.Holds]

theorem holds_of_find? {c : Config} {check : Bool × ConfigError}
    (h : c.checks.find? (·.1) = some check) :
    check.2.Holds c ∧ check.2 ≠ .empty "dead_letter_topic" := by
  have hfound : check.1 = true := List.find?_some h
  have hmem : (true, check.2) ∈ c.checks := hfound ▸ List.mem_of_find?_eq_some h
  exact mem_checks_iff.mp hmem

theorem holds_empty_deadLetter_iff {c : Config} :
    (ConfigError.empty "dead_letter_topic").Holds c ↔ c.deadLetterTopic = some "" := by
  simp [ConfigError.Holds, names, required]

/-! ## Verdicts -/

theorem validate_eq (c : Config) : c.validate =
    match c.checks.find? (·.1) with
    | some check => .error check.2
    | none => .ok () := by
  unfold validate
  rw [firstFault_eq]
  cases c.checks.find? (·.1) with
  | none => rfl
  | some check => rfl

/-- A configuration is accepted if no error holds of it but the one that is not looked for. -/
theorem validate_eq_ok_iff {c : Config} :
    c.validate = .ok () ↔ ∀ e : ConfigError, e.Holds c → e = .empty "dead_letter_topic" := by
  rw [validate_eq]
  cases hfind : c.checks.find? (·.1) with
  | none =>
    refine iff_of_true rfl fun e he => ?_
    by_contra hne
    exact List.find?_eq_none.mp hfind _ (mem_checks_iff.mpr ⟨he, hne⟩) rfl
  | some check =>
    obtain ⟨hholds, hne⟩ := holds_of_find? hfind
    exact iff_of_false nofun fun h => hne (h check.2 hholds)

/-- A configuration is rejected for an error that holds of it. -/
theorem holds_of_validate {c : Config} {e : ConfigError} (h : c.validate = .error e) :
    e.Holds c := by
  rw [validate_eq] at h
  split at h
  · next check hfind =>
    obtain rfl : check.2 = e := Except.error.inj h
    exact (holds_of_find? hfind).1
  · cases h

/-- A configuration without an empty dead-letter topic is accepted if it is sane. -/
theorem validate_eq_ok_iff_sane {c : Config} (h : c.deadLetterTopic ≠ some "") :
    c.validate = .ok () ↔ c.Sane := by
  rw [validate_eq_ok_iff, sane_iff]
  refine forall_congr' fun e => ⟨fun hall he => ?_, fun hnone he => absurd he hnone⟩
  obtain rfl := hall he
  exact h (holds_empty_deadLetter_iff.mp he)

theorem not_sane_of_empty_deadLetter {c : Config} (h : c.deadLetterTopic = some "") : ¬ c.Sane :=
  fun hsane => sane_iff.mp hsane _ (holds_empty_deadLetter_iff.mpr h)

/-! ## Where configurations come from -/

/-- Variables set no empty dead-letter topic. -/
theorem deadLetterTopic_overlay (settings : List (String × String)) :
    (overlay settings).deadLetterTopic ≠ some "" := by
  show (text? settings "DEAD_LETTER_TOPIC").elim none (fun t => if t = "" then none else some t) ≠ _
  cases text? settings "DEAD_LETTER_TOPIC" with
  | none => exact nofun
  | some topic =>
    by_cases h : topic = ""
    · simp [h]
    · simp [h]

/-- Settings do if one of them does. -/
theorem exists_of_deadLetterTopic_foldl {c : Config} {settings : List Setting}
    (h : (settings.foldl Setting.apply c).deadLetterTopic = some "") :
    c.deadLetterTopic = some "" ∨ .deadLetterTopic "" ∈ settings ∨
      ∃ c', .all c' ∈ settings ∧ c'.deadLetterTopic = some "" := by
  induction settings generalizing c with
  | nil => exact .inl h
  | cons setting rest ih =>
    rcases ih h with hnow | hlater | ⟨c', hlater, hempty⟩
    · cases setting with
      | all c' => exact .inr (.inr ⟨c', List.mem_cons_self, hnow⟩)
      | deadLetterTopic topic =>
        obtain rfl : topic = "" := Option.some.inj hnow
        exact .inr (.inl List.mem_cons_self)
      | _ => exact .inl hnow
    · exact .inr (.inl (List.mem_cons_of_mem _ hlater))
    · exact .inr (.inr ⟨c', List.mem_cons_of_mem _ hlater, hempty⟩)

/-- A configuration is accepted exactly if it is sane, and otherwise rejected for an error that
holds of it, unless its dead-letter topic is the empty name. Then it is not sane, and it is accepted
if nothing else is wrong with it. Variables set no such name, and settings only if they name it. -/
theorem validate_iff (c : Config) :
    (c.deadLetterTopic ≠ some "" → (c.validate = .ok () ↔ c.Sane)) ∧
    (c.deadLetterTopic = some "" → ¬ c.Sane ∧ (c.validate = .ok () ↔
      ∀ e : ConfigError, e.Holds c → e = .empty "dead_letter_topic")) ∧
    (∀ e : ConfigError, c.validate = .error e → e.Holds c) ∧
    (∀ settings : List (String × String), settings.foldlM assign default = .ok c →
      c.deadLetterTopic ≠ some "") ∧
    ∀ settings : List Setting, c = build settings → c.deadLetterTopic = some "" →
      .deadLetterTopic "" ∈ settings ∨ ∃ c', .all c' ∈ settings ∧ c'.deadLetterTopic = some "" := by
  refine ⟨validate_eq_ok_iff_sane, fun h => ⟨not_sane_of_empty_deadLetter h, validate_eq_ok_iff⟩,
    fun e => holds_of_validate, ?byVariables, ?bySettings⟩
  case byVariables =>
    intro settings h
    rw [foldlM_assign] at h
    split at h
    · cases h
    · obtain rfl := Except.ok.inj h
      exact deadLetterTopic_overlay settings
  case bySettings =>
    rintro settings rfl h
    exact (exists_of_deadLetterTopic_foldl h).resolve_left nofun

/-- A dead-letter topic with a role already is found. -/
theorem validate_iff_shared :
    (build [.deadLetterTopic "tasks"]).validate = .error (.duplicateTopic "tasks") ∧
      (ConfigError.duplicateTopic "tasks").Holds (build [.deadLetterTopic "tasks"]) ∧
      ¬ (build [.deadLetterTopic "tasks"]).Sane := by
  obtain ⟨hsane, -, hholds, -⟩ := validate_iff (build [.deadLetterTopic "tasks"])
  have hrejected : (build [.deadLetterTopic "tasks"]).validate = .error (.duplicateTopic "tasks") :=
    rfl
  refine ⟨hrejected, hholds _ hrejected, fun h => ?_⟩
  have haccepted := (hsane (by decide)).mpr h
  rw [hrejected] at haccepted
  cases haccepted

/-- A dead-letter topic that is set to the empty name is accepted. -/
theorem validate_empty_deadLetter :
    (build [.deadLetterTopic ""]).validate = .ok () ∧ ¬ (build [.deadLetterTopic ""]).Sane := by
  refine ⟨rfl, fun h => ?_⟩
  exact h.named ("dead_letter_topic", "") (by decide) rfl

end Config

end WorkQueue
