import Mathlib.Algebra.Order.Ring.Nat
import Mathlib.Data.List.Nodup
import WorkQueue.Config.Json
import WorkQueue.Proofs.Json.Records

/-!
# Configurations read back

A configuration is written with all of its options and read from any of them. Whichever are given,
in whatever order and beside whatever else, the result is the defaults with these options replaced:
every option is written and read under the same name and in the same form, and none touches another.

Spans are written in whole milliseconds that fit a word, so only such spans are read back.

## Main definitions

* `Config.Storable`: what the text of a configuration can hold
* `Config.restrict`: the defaults with some of the options of a configuration

## Main statements

* `Config.parse_some`: what is read from an object of some options
* `Config.parse_render`, `Config.parse_values`: what is written is read back
* `Config.reads_back`: all of it together
-/

namespace WorkQueue

namespace Config

open Reader

/-- A span of whole milliseconds that fit a word. -/
def WholeMillis (d : Duration) : Prop := ∃ n < 2 ^ 64, d = .ofMillis n

/-- A configuration that its text can hold: spans are whole milliseconds, and counts fit the words
they are kept in. -/
structure Storable (c : Config) : Prop where
  delayed_base : WholeMillis c.delayedBase
  poll_timeout : WholeMillis c.pollTimeout
  error_pause : WholeMillis c.errorPause
  republish_budget : WholeMillis c.republishBudget
  parallel_le : c.maxParallelTasks ≤ maxWord64
  capacity_le : c.intakeCapacity ≤ maxWord64
  retries_le : c.maxTaskRetries ≤ maxWord32
  attempts_le : c.republishAttempts ≤ maxWord32

/-- The names of the options. -/
def optionNames : List String := [
  "bootstrap_servers", "group_id", "primary_topic", "delayed_topic", "dead_letter_topic",
  "delayed_base_ms", "max_parallel_tasks", "intake_capacity", "poll_timeout_ms", "error_pause_ms",
  "max_task_retries", "republish_attempts", "republish_budget_ms"]

/-- The defaults with the options of `c` that are kept. -/
def restrict (c : Config) (keep : String → Bool) : Config where
  bootstrapServers :=
    if keep "bootstrap_servers" then c.bootstrapServers else default.bootstrapServers
  groupId := if keep "group_id" then c.groupId else default.groupId
  primaryTopic := if keep "primary_topic" then c.primaryTopic else default.primaryTopic
  delayedTopic := if keep "delayed_topic" then c.delayedTopic else default.delayedTopic
  deadLetterTopic := if keep "dead_letter_topic" then c.deadLetterTopic else default.deadLetterTopic
  delayedBase := if keep "delayed_base_ms" then c.delayedBase else default.delayedBase
  maxParallelTasks :=
    if keep "max_parallel_tasks" then c.maxParallelTasks else default.maxParallelTasks
  intakeCapacity := if keep "intake_capacity" then c.intakeCapacity else default.intakeCapacity
  pollTimeout := if keep "poll_timeout_ms" then c.pollTimeout else default.pollTimeout
  errorPause := if keep "error_pause_ms" then c.errorPause else default.errorPause
  maxTaskRetries := if keep "max_task_retries" then c.maxTaskRetries else default.maxTaskRetries
  republishAttempts :=
    if keep "republish_attempts" then c.republishAttempts else default.republishAttempts
  republishBudget :=
    if keep "republish_budget_ms" then c.republishBudget else default.republishBudget

variable {c : Config}

@[simp] theorem restrict_all (c : Config) : (c.restrict fun _ => true) = c := rfl

@[simp] theorem restrict_none (c : Config) : (c.restrict fun _ => false) = default := rfl

/-- Only the names of options matter. -/
theorem restrict_congr {keep keep' : String → Bool}
    (h : ∀ name ∈ optionNames, keep name = keep' name) : c.restrict keep = c.restrict keep' := by
  simp only [optionNames, List.forall_mem_cons] at h
  simp [restrict, h]

theorem nodup_optionNames : optionNames.Nodup := by decide

/-! ## Options read one by one -/

/-- The configuration of the options that have been read. -/
def stage (c : Config) (seen : List String) : Config := c.restrict seen.contains

theorem ofMillis_millisWord {d : Duration} (h : WholeMillis d) : .ofMillis d.millisWord = d := by
  obtain ⟨n, hn, rfl⟩ := h
  have hword : (Duration.ofMillis n).millisWord = n := by
    rw [Duration.millisWord, Duration.toMillis_ofMillis]
    exact Nat.mod_eq_of_lt hn
  rw [hword]

theorem read_millis {d : Duration} (h : WholeMillis d) {rest : List UInt8} (hrest : Ends rest)
    (depth : Nat) :
    millis.read depth (utf8 (millisWord d).render ++ rest) = .ok (d, rest) := by
  have hword : d.millisWord ≤ maxWord64 := by
    have hlt : d.millisWord < 2 ^ 64 := Nat.mod_lt _ (by decide)
    exact Nat.le_of_lt_succ hlt
  have hread := Shape.read_map Duration.ofMillis
    (Shape.read_unsigned "u64" hword (Nat.le_refl _) hrest depth)
  rwa [ofMillis_millisWord h] at hread

theorem read_topic (topic : Option String) (rest : List UInt8) (depth : Nat) :
    Shape.text.optional.read depth
        (utf8 (match topic with | some t => Json.str t | none => .null).render ++ rest) =
      .ok (topic, rest) := by
  cases topic with
  | none => exact Shape.read_optional_null
  | some t =>
    have hread : Shape.text.read depth (utf8 (Json.str t).render ++ rest) = .ok (t, rest) :=
      Shape.read_text t depth
    have hbytes : utf8 (Json.str t).render = Byte.ofChar '"' :: literalTail t := utf8_renderString t
    rw [hbytes, List.cons_append] at hread
    show Shape.text.optional.read depth (utf8 (Json.str t).render ++ rest) = _
    rw [hbytes, List.cons_append]
    exact Shape.read_optional (by decide) (by decide) hread

/-- A field that is read sets an option if this is the stage it leads to. -/
theorem sets_of {β : Type} {name : String} {shape : Shape β} {set : β → Config → Config} {v : Json}
    {b : β} {depth : Nat}
    (hread : ∀ rest, Ends rest → shape.read depth (utf8 v.render ++ rest) = .ok (b, rest))
    (hset : ∀ seen, set b (c.stage seen) = c.stage (name :: seen)) :
    RecordShape.Sets depth c.stage (.of name shape set) (name, v) :=
  fun rest hrest => ⟨set b, Shape.read_map set (hread rest hrest), hset⟩

/-- Every option is read under its name as the one it was written for. -/
theorem sets_members (h : c.Storable) (depth : Nat) :
    List.Forall₂ (RecordShape.Sets depth c.stage) record.fields c.members := by
  have htext : ∀ t rest, Ends rest →
      Shape.text.read depth (utf8 (Json.str t).render ++ rest) = .ok (t, rest) :=
    fun t _ _ => Shape.read_text t depth
  have hmillis : ∀ {d}, WholeMillis d → ∀ rest, Ends rest →
      millis.read depth (utf8 (millisWord d).render ++ rest) = .ok (d, rest) :=
    fun hd _ hrest => read_millis hd hrest depth
  have hsize : ∀ {n : Nat}, n ≤ maxWord64 → ∀ rest, Ends rest →
      Shape.size.read depth (utf8 (Json.int n).render ++ rest) = .ok (n, rest) :=
    fun hn _ hrest => Shape.read_unsigned "usize" hn (Nat.le_refl _) hrest depth
  have hcount : ∀ {n : Nat}, n ≤ maxWord32 → ∀ rest, Ends rest →
      Shape.word32.read depth (utf8 (Json.int n).render ++ rest) = .ok (n, rest) :=
    fun hn _ hrest => Shape.read_unsigned "u32" hn (by decide) hrest depth
  refine .cons (sets_of (htext c.bootstrapServers) ?_) <|
    .cons (sets_of (htext c.groupId) ?_) <|
    .cons (sets_of (htext c.primaryTopic) ?_) <|
    .cons (sets_of (htext c.delayedTopic) ?_) <|
    .cons (sets_of (fun rest _ => read_topic c.deadLetterTopic rest depth) ?_) <|
    .cons (sets_of (hmillis h.delayed_base) ?_) <|
    .cons (sets_of (hsize h.parallel_le) ?_) <|
    .cons (sets_of (hsize h.capacity_le) ?_) <|
    .cons (sets_of (hmillis h.poll_timeout) ?_) <|
    .cons (sets_of (hmillis h.error_pause) ?_) <|
    .cons (sets_of (hcount h.retries_le) ?_) <|
    .cons (sets_of (hcount h.attempts_le) ?_) <|
    .cons (sets_of (hmillis h.republish_budget) ?_) .nil
  -- no option touches another one
  all_goals
    intro seen
    simp [stage, restrict]

/-! ## Whole texts -/

theorem isOption_iff {name : String} :
    (record.fields.find? (·.name == name)).isSome = true ↔ name ∈ optionNames :=
  RecordShape.isSome_find?_iff

/-- Of members the options are given that are kept. -/
theorem given_perm {keep : String → Bool} {unknown members : List (String × Json)}
    (hunknown : ∀ m ∈ unknown, m.1 ∉ optionNames)
    (hperm : members.Perm ((c.members.filter fun m => keep m.1) ++ unknown)) :
    (record.given members).Perm (optionNames.filter keep) := by
  have hkept : ((c.members.filter fun m => keep m.1).map (·.1)).filter
      (fun name => (record.fields.find? (·.name == name)).isSome) = optionNames.filter keep := by
    have hmap : (c.members.filter fun m => keep m.1).map (·.1) = optionNames.filter keep :=
      List.filter_map.symm
    rw [hmap, List.filter_eq_self]
    exact fun name hname => isOption_iff.mpr (List.mem_of_mem_filter hname)
  have hnone : (unknown.map (·.1)).filter
      (fun name => (record.fields.find? (·.name == name)).isSome) = [] := by
    rw [List.filter_eq_nil_iff]
    intro name hname hoption
    obtain ⟨m, hm, rfl⟩ := List.mem_map.mp hname
    exact hunknown m hm (isOption_iff.mp hoption)
  have hmembers := (hperm.map (·.1)).filter fun name =>
    (record.fields.find? (·.name == name)).isSome
  rwa [List.map_append, List.filter_append, hkept, hnone, List.append_nil] at hmembers

/-- An object of some options, in any order and beside members of other names, is read as the
defaults with these options replaced. -/
theorem parse_some (h : c.Storable) (keep : String → Bool)
    {unknown members : List (String × Json)} (hunknown : ∀ m ∈ unknown, m.1 ∉ optionNames)
    (hperm : members.Perm ((c.members.filter fun m => keep m.1) ++ unknown)) :
    parse (Json.obj members).render = .ok (c.restrict keep) := by
  have hdepth : 126 + 1 = nestingLimit := rfl
  have hgiven := given_perm hunknown hperm
  have honce : (record.given members).Nodup :=
    hgiven.nodup_iff.mpr (nodup_optionNames.filter _)
  have hsets : ∀ m ∈ members, ∀ field, record.fields.find? (·.name == m.1) = some field →
      RecordShape.Sets 126 c.stage field m := by
    intro m hm field hfield
    rcases List.mem_append.mp (hperm.mem_iff.mp hm) with hkept | hother
    · exact RecordShape.sets_of_find? (sets_members h 126) rfl nodup_optionNames
        (List.mem_of_mem_filter hkept) hfield
    · refine absurd (isOption_iff.mp ?_) (hunknown m hother)
      rw [hfield]
      rfl
  have hstage : c.stage (record.given members).reverse = c.restrict keep := by
    refine restrict_congr fun name hname => ?_
    rw [Bool.eq_iff_iff, List.contains_iff_mem, List.mem_reverse, hgiven.mem_iff, List.mem_filter]
    exact and_iff_right hname
  rw [← hstage]
  exact RecordShape.parse_members hdepth (by decide) rfl hsets honce

/-- What is written is read back. -/
theorem parse_render (h : c.Storable) : parse c.render = .ok c :=
  parse_some h (fun _ => true) (fun _ hm => absurd hm List.not_mem_nil) (by simp)

/-- So is the list of what is written for the options. -/
theorem parse_values (h : c.Storable) :
    parse (Json.arr (c.members.map (·.2))).render = .ok c := by
  have hdepth : 126 + 1 = nestingLimit := rfl
  have hall : c.stage (c.members.map (·.1)).reverse = c.restrict fun _ => true := by
    refine restrict_congr fun name hname => ?_
    rw [List.contains_iff_mem, List.mem_reverse]
    exact hname
  rw [← restrict_all c, ← hall]
  exact RecordShape.parse_elements hdepth rfl (sets_members h 126)

/-! ## Main theorem -/

/-- **Configurations are read back.** An object of any of the options of a configuration, each
written once, in any order and beside any members of other names, is read as the defaults with these
options replaced. So the text of the configuration and the list of the values in it are both read as
the configuration itself, which validation judges as before. -/
theorem reads_back (h : c.Storable) :
    (∀ (keep : String → Bool) (unknown members : List (String × Json)),
      (∀ m ∈ unknown, m.1 ∉ optionNames) →
      members.Perm ((c.members.filter fun m => keep m.1) ++ unknown) →
      parse (Json.obj members).render = .ok (c.restrict keep)) ∧
    parse c.render = .ok c ∧
    parse (Json.arr (c.members.map (·.2))).render = .ok c ∧
    ∀ c', parse c.render = .ok c' ∨ parse (Json.arr (c.members.map (·.2))).render = .ok c' →
      c'.validate = c.validate := by
  refine ⟨fun keep unknown members hunknown hperm => parse_some h keep hunknown hperm, parse_render h,
    parse_values h, fun c' hread => ?_⟩
  have heq : c' = c := by
    rcases hread with hobject | hlist
    · exact (Except.ok.inj ((parse_render h).symm.trans hobject)).symm
    · exact (Except.ok.inj ((parse_values h).symm.trans hlist)).symm
  rw [heq]

/-- The longest span and the largest counts there are, and a name with a quote in it. -/
def extreme : Config := {
  groupId := "a \"group\"\n"
  deadLetterTopic := some "tasks-dead"
  delayedBase := .ofMillis maxWord64
  pollTimeout := .ofMillis 0
  maxParallelTasks := maxWord64
  maxTaskRetries := maxWord32 }

/-- Three of its options in another order, beside a member of another name that nests and holds a
double. -/
def extremeMembers : List (String × Json) := [
  ("delayed_base_ms", .int maxWord64),
  ("comment", .arr [.float ⟨true, 3 * pow2 51, -52⟩, .obj [("group_id", .null)]]),
  ("dead_letter_topic", .str "tasks-dead"),
  ("group_id", .str "a \"group\"\n")]

theorem reads_back_extreme :
    extreme.Storable ∧ parse extreme.render = .ok extreme ∧
    parse (Json.obj extremeMembers).render =
      .ok { groupId := extreme.groupId, deadLetterTopic := some "tasks-dead",
            delayedBase := .ofMillis maxWord64 } := by
  have hstorable : extreme.Storable := {
    delayed_base := ⟨maxWord64, by decide, rfl⟩
    poll_timeout := ⟨0, by decide, rfl⟩
    error_pause := ⟨1000, by decide, rfl⟩
    republish_budget := ⟨30000, by decide, rfl⟩
    parallel_le := Nat.le_refl _
    capacity_le := by decide
    retries_le := Nat.le_refl _
    attempts_le := by decide }
  obtain ⟨hsome, hwhole, -⟩ := reads_back hstorable
  refine ⟨hstorable, hwhole, ?_⟩
  exact hsome (["delayed_base_ms", "dead_letter_topic", "group_id"].contains ·)
    [("comment", .arr [.float ⟨true, 3 * pow2 51, -52⟩, .obj [("group_id", .null)]])] _
    (by decide) (by decide +kernel)

end Config

end WorkQueue
