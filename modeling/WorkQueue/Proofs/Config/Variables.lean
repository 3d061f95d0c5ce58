import Mathlib.Data.List.Induction
import WorkQueue.Config.Variables

/-!
# What variables come to

Each option is set by the last variable that names it, and keeps its default if there is none. So
variables with different names may change places, earlier ones of the same name may be left out, and
variables that are no options may stand anywhere. All this holds as long as every number can be read;
otherwise the first one that cannot be read is named, whatever stands behind it.

## Main definitions

* `Config.lastOf`: the value of the last variable of a name
* `Config.overlay`: the defaults under the last variable of each option
* `Config.unreadable`: variables for numbers that cannot be read

## Main statements

* `Config.assign_overlay`: the effect of one more variable
* `Config.ofVariables_eq`: the verdict on a whole list
* `Config.ofVariables_last_wins`: what may be changed about the list
-/

namespace WorkQueue

namespace Config

variable {settings other : List (String × String)} {name option : String}

/-! ## The last variable of a name -/

/-- The value of the last variable of a name. -/
def lastOf (name : String) (settings : List (String × String)) : Option String :=
  (settings.filter (·.1 == name)).getLast?.map (·.2)

theorem lastOf_append (name : String) (settings more : List (String × String)) :
    lastOf name (settings ++ more) = (lastOf name more).or (lastOf name settings) := by
  unfold lastOf
  rw [List.filter_append, List.getLast?_append, Option.map_or]

theorem lastOf_singleton (name : String) (pair : String × String) :
    lastOf name [pair] = if name = pair.1 then some pair.2 else none := by
  unfold lastOf
  by_cases h : name = pair.1
  · simp [h]
  · simp [h, Ne.symm h]

theorem exists_lastOf (h : name ∈ settings.map (·.1)) :
    ∃ value, lastOf name settings = some value := by
  obtain ⟨pair, hpair, hname⟩ := List.mem_map.mp h
  have hne : settings.filter (·.1 == name) ≠ [] :=
    List.ne_nil_of_mem (List.mem_filter.mpr ⟨hpair, beq_iff_eq.mpr hname⟩)
  unfold lastOf
  rw [List.getLast?_eq_some_getLast hne]
  exact ⟨_, rfl⟩

/-! ## Options -/

/-- The options that hold a text. -/
def textOptions : List String :=
  ["BOOTSTRAP_SERVERS", "GROUP_ID", "PRIMARY_TOPIC", "DELAYED_TOPIC", "DEAD_LETTER_TOPIC"]

/-- The options that hold a number, and the largest one. -/
def numberOptions : List (String × Nat) := [
  ("DELAYED_BASE_MS", maxWord64), ("MAX_PARALLEL_TASKS", maxWord64), ("INTAKE_CAPACITY", maxWord64),
  ("POLL_TIMEOUT_MS", maxWord64), ("ERROR_PAUSE_MS", maxWord64), ("MAX_TASK_RETRIES", maxWord32),
  ("REPUBLISH_ATTEMPTS", maxWord32), ("REPUBLISH_BUDGET_MS", maxWord64)]

/-- The names of variables that set an option. -/
def recognized : List String :=
  (textOptions ++ numberOptions.map (·.1)).map (variableMark ++ ·)

/-- The text given for an option. -/
def text? (settings : List (String × String)) (option : String) : Option String :=
  lastOf (variableMark ++ option) settings

/-- The number given for an option. -/
def number? (settings : List (String × String)) (option : String) (largest : Nat) : Option Nat :=
  (text? settings option).bind (readCount? largest)

/-- The span given for an option, in milliseconds. -/
def span? (settings : List (String × String)) (option : String) : Option Duration :=
  (number? settings option maxWord64).map Duration.ofMillis

/-- The defaults, each of them overridden by the last variable for it. An empty dead-letter topic
is none. -/
def overlay (settings : List (String × String)) : Config where
  bootstrapServers := (text? settings "BOOTSTRAP_SERVERS").getD default.bootstrapServers
  groupId := (text? settings "GROUP_ID").getD default.groupId
  primaryTopic := (text? settings "PRIMARY_TOPIC").getD default.primaryTopic
  delayedTopic := (text? settings "DELAYED_TOPIC").getD default.delayedTopic
  deadLetterTopic := (text? settings "DEAD_LETTER_TOPIC").elim default.deadLetterTopic
    fun topic => if topic = "" then none else some topic
  delayedBase := (span? settings "DELAYED_BASE_MS").getD default.delayedBase
  maxParallelTasks :=
    (number? settings "MAX_PARALLEL_TASKS" maxWord64).getD default.maxParallelTasks
  intakeCapacity := (number? settings "INTAKE_CAPACITY" maxWord64).getD default.intakeCapacity
  pollTimeout := (span? settings "POLL_TIMEOUT_MS").getD default.pollTimeout
  errorPause := (span? settings "ERROR_PAUSE_MS").getD default.errorPause
  maxTaskRetries := (number? settings "MAX_TASK_RETRIES" maxWord32).getD default.maxTaskRetries
  republishAttempts :=
    (number? settings "REPUBLISH_ATTEMPTS" maxWord32).getD default.republishAttempts
  republishBudget := (span? settings "REPUBLISH_BUDGET_MS").getD default.republishBudget

/-- Is this a variable for a number whose value is no number of the range? -/
def unreadable (pair : String × String) : Bool :=
  numberOptions.any fun entry =>
    pair.1 == variableMark ++ entry.1 && (readCount? entry.2 pair.2).isNone

/-- Only the last variable of each option matters. -/
theorem overlay_congr (h : ∀ name ∈ recognized, lastOf name other = lastOf name settings) :
    overlay other = overlay settings := by
  simp only [recognized, textOptions, numberOptions, List.map_cons, List.map_nil,
    List.cons_append, List.nil_append, List.forall_mem_cons] at h
  simp [overlay, span?, number?, text?, h]

theorem mem_recognized_of_unreadable {pair : String × String} (h : unreadable pair = true) :
    pair.1 ∈ recognized := by
  obtain ⟨entry, hentry, hpair⟩ := List.any_eq_true.mp h
  rw [Bool.and_eq_true, beq_iff_eq] at hpair
  rw [hpair.1]
  exact List.mem_map_of_mem (List.mem_append_right _ (List.mem_map_of_mem hentry))

/-! ## One more variable -/

@[simp] theorem mark_beq_mark (option option' : String) :
    (variableMark ++ option == variableMark ++ option') = (option == option') := by
  rw [Bool.eq_iff_iff, beq_iff_eq, beq_iff_eq]
  exact String.append_right_inj variableMark

/-- What stands behind the mark names the option. -/
theorem drop_variableMark (option : String) :
    ((variableMark ++ option).drop variableMark.length).toString = option := by
  rw [← String.toList_inj]
  refine String.toList_copy_drop.trans ?_
  rw [String.toList_append, List.drop_left' String.length_toList]

theorem optionOf?_eq_some_iff : optionOf? name = some option ↔ name = variableMark ++ option := by
  unfold optionOf?
  rw [Option.ite_none_right_eq_some, Option.some.injEq]
  constructor
  · rintro ⟨hmark, rfl⟩
    obtain ⟨rest, hrest⟩ := String.startsWith_string_iff.mp hmark
    obtain rfl : name = variableMark ++ String.ofList rest := by
      rw [← String.toList_inj, String.toList_append, String.toList_ofList, hrest]
    rw [drop_variableMark]
  · rintro rfl
    refine ⟨String.startsWith_string_iff.mpr ?_, drop_variableMark option⟩
    rw [String.toList_append]
    exact List.prefix_append _ _

/-- A variable that sets no option changes nothing. -/
theorem overlay_concat_of_not_mem {pair : String × String} (h : pair.1 ∉ recognized) :
    overlay (settings ++ [pair]) = overlay settings := by
  refine overlay_congr fun name hname => ?_
  have hne : name ≠ pair.1 := fun heq => h (heq ▸ hname)
  rw [lastOf_append, lastOf_singleton, if_neg hne, Option.none_or]

@[simp] theorem text?_concat (settings : List (String × String)) (option value option' : String) :
    text? (settings ++ [(variableMark ++ option, value)]) option' =
      if option' = option then some value else text? settings option' := by
  unfold text?
  rw [lastOf_append, lastOf_singleton]
  by_cases h : option' = option
  · rw [if_pos h, if_pos (congrArg _ h), Option.some_or]
  · rw [if_neg h, if_neg (by simpa using h), Option.none_or]

@[simp] theorem number?_concat (settings : List (String × String)) (option value option' : String)
    (largest : Nat) : number? (settings ++ [(variableMark ++ option, value)]) option' largest =
      if option' = option then readCount? largest value else number? settings option' largest := by
  unfold number?
  rw [text?_concat]
  split <;> rfl

/-- What is read as a number overrides the option, and what is not is refused. -/
theorem map_readCount? {largest : Nat} {value : String} {set : Nat → Config}
    (hrange : unreadable (variableMark ++ option, value) = (readCount? largest value).isNone)
    (hset : ∀ n, readCount? largest value = some n →
      set n = overlay (settings ++ [(variableMark ++ option, value)])) :
    (readCount? largest value).map set =
      if unreadable (variableMark ++ option, value) then none
      else some (overlay (settings ++ [(variableMark ++ option, value)])) := by
  rw [hrange]
  cases h : readCount? largest value with
  | none => rfl
  | some n => exact congrArg some (hset n h)

/-- Setting an option overrides it, unless it holds a number and the text is none. -/
theorem setOption?_overlay (settings : List (String × String)) (option value : String) :
    (overlay settings).setOption? option value =
      if unreadable (variableMark ++ option, value) then none
      else some (overlay (settings ++ [(variableMark ++ option, value)])) := by
  unfold setOption?
  simp only [Option.map_map]
  split
  -- texts
  · simp [unreadable, numberOptions, overlay, span?]
  · simp [unreadable, numberOptions, overlay, span?]
  · simp [unreadable, numberOptions, overlay, span?]
  · simp [unreadable, numberOptions, overlay, span?]
  · simp [unreadable, numberOptions, overlay, span?]
  -- numbers
  · exact map_readCount? (by simp [unreadable, numberOptions]) fun n hn => by
      simp [overlay, span?, hn]
  · exact map_readCount? (by simp [unreadable, numberOptions]) fun n hn => by
      simp [overlay, span?, hn]
  · exact map_readCount? (by simp [unreadable, numberOptions]) fun n hn => by
      simp [overlay, span?, hn]
  · exact map_readCount? (by simp [unreadable, numberOptions]) fun n hn => by
      simp [overlay, span?, hn]
  · exact map_readCount? (by simp [unreadable, numberOptions]) fun n hn => by
      simp [overlay, span?, hn]
  · exact map_readCount? (by simp [unreadable, numberOptions]) fun n hn => by
      simp [overlay, span?, hn]
  · exact map_readCount? (by simp [unreadable, numberOptions]) fun n hn => by
      simp [overlay, span?, hn]
  · exact map_readCount? (by simp [unreadable, numberOptions]) fun n hn => by
      simp [overlay, span?, hn]
  -- other options do not exist
  · have hother : variableMark ++ option ∉ recognized := by
      simp_all [recognized, textOptions, numberOptions]
    rw [overlay_concat_of_not_mem hother,
      if_neg fun h => hother (mem_recognized_of_unreadable h)]

/-- The effect of one more variable. -/
theorem assign_overlay (settings : List (String × String)) (pair : String × String) :
    (overlay settings).assign pair =
      if unreadable pair then .error (.invalidVariable pair.1 pair.2)
      else .ok (overlay (settings ++ [pair])) := by
  obtain ⟨name, value⟩ := pair
  unfold assign
  cases hoption : optionOf? name with
  | none =>
    have hother : name ∉ recognized := by
      intro hname
      obtain ⟨option, -, hmark⟩ := List.mem_map.mp hname
      rw [optionOf?_eq_some_iff.mpr hmark.symm] at hoption
      cases hoption
    rw [overlay_concat_of_not_mem hother,
      if_neg fun h => hother (mem_recognized_of_unreadable h)]
  | some option =>
    obtain rfl := optionOf?_eq_some_iff.mp hoption
    dsimp only
    rw [setOption?_overlay]
    by_cases hvalue : unreadable (variableMark ++ option, value) = true
    · rw [if_pos hvalue, if_pos hvalue]
    · rw [if_neg hvalue, if_neg hvalue]

/-! ## All variables -/

theorem foldlM_assign (settings : List (String × String)) :
    settings.foldlM assign default =
      match settings.find? unreadable with
      | some (name, value) => .error (.invalidVariable name value)
      | none => .ok (overlay settings) := by
  -- on the last variable, which is the one that wins
  induction settings using List.reverseRecOn with
  | nil => rfl
  | append_singleton settings pair ih =>
    rw [List.foldlM_append, ih, List.find?_append]
    cases settings.find? unreadable with
    | some first => rfl
    | none =>
      -- everything in front has been read
      rw [Option.none_or]
      show [pair].foldlM assign (overlay settings) = _
      rw [List.foldlM_cons, assign_overlay]
      by_cases hvalue : unreadable pair = true
      · rw [if_pos hvalue, List.find?_cons_of_pos hvalue]
        rfl
      · rw [if_neg hvalue, List.find?_cons_of_neg hvalue]
        rfl

/-- The first number that cannot be read ends the reading, and otherwise the overridden defaults
are validated. -/
theorem ofVariables_eq (settings : List (String × String)) :
    ofVariables settings =
      match settings.find? unreadable with
      | some (name, value) => .error (.invalidVariable name value)
      | none => (overlay settings).validate.map fun _ => overlay settings := by
  unfold ofVariables
  rw [foldlM_assign]
  cases settings.find? unreadable with
  | some first => rfl
  | none =>
    show ((overlay settings).validate >>= fun _ => pure (overlay settings)) = _
    cases (overlay settings).validate with
    | error e => rfl
    | ok done => rfl

/-- All numbers can be read. -/
def Readable (settings : List (String × String)) : Prop :=
  ∀ pair ∈ settings, unreadable pair = false

theorem Readable.find?_eq_none (h : Readable settings) : settings.find? unreadable = none :=
  List.find?_eq_none.mpr fun pair hpair => by simp [h pair hpair]

/-- If all numbers can be read, only the last variable of each option matters. -/
theorem Readable.ofVariables_congr (h : Readable settings) (hother : Readable other)
    (hlast : ∀ name ∈ recognized, lastOf name other = lastOf name settings) :
    ofVariables other = ofVariables settings := by
  rw [ofVariables_eq, ofVariables_eq, h.find?_eq_none, hother.find?_eq_none, overlay_congr hlast]

/-- Variables that set no option do not matter, whether numbers can be read or not. -/
theorem ofVariables_filter (settings : List (String × String)) :
    ofVariables (settings.filter fun pair => pair.1 ∈ recognized) = ofVariables settings := by
  have hfind : (settings.filter fun pair => pair.1 ∈ recognized).find? unreadable =
      settings.find? unreadable := by
    rw [List.find?_filter]
    congr 1
    funext pair
    by_cases h : unreadable pair = true
    · simp [h, mem_recognized_of_unreadable h]
    · simp [h]
  have hlast : overlay (settings.filter fun pair => pair.1 ∈ recognized) = overlay settings := by
    refine overlay_congr fun name hname => ?_
    unfold lastOf
    rw [List.filter_filter]
    congr 2
    refine List.filter_congr fun pair _ => ?_
    by_cases h : pair.1 = name
    · simp [h, hname]
    · simp [h]
  rw [ofVariables_eq, ofVariables_eq, hfind, hlast]

/-- Variables of different names may change places. -/
theorem Readable.ofVariables_reorder (h : Readable settings)
    (hsame : ∀ name, other.filter (·.1 == name) = settings.filter (·.1 == name)) :
    ofVariables other = ofVariables settings := by
  refine h.ofVariables_congr (fun pair hpair => ?_) fun name _ => ?_
  · have hmem : pair ∈ other.filter (·.1 == pair.1) :=
      List.mem_filter.mpr ⟨hpair, beq_self_eq_true _⟩
    rw [hsame] at hmem
    exact h pair (List.mem_filter.mp hmem).1
  · unfold lastOf
    rw [hsame]

/-- A variable that is set again may be left out. -/
theorem Readable.ofVariables_erase {before after : List (String × String)} {pair : String × String}
    (h : Readable (before ++ pair :: after)) (hagain : pair.1 ∈ after.map (·.1)) :
    ofVariables (before ++ after) = ofVariables (before ++ pair :: after) := by
  refine h.ofVariables_congr (fun other hother => h other ?_) fun name _ => ?_
  · exact (List.sublist_append_right [pair] after |>.append_left before).subset hother
  · have hcons : pair :: after = [pair] ++ after := rfl
    rw [lastOf_append, hcons, lastOf_append, lastOf_append, lastOf_singleton]
    by_cases hname : name = pair.1
    -- what it has set is overridden behind it
    · obtain ⟨value, hvalue⟩ := exists_lastOf (hname ▸ hagain)
      rw [hvalue]
      rfl
    · rw [if_neg hname, Option.or_none]

/-- The first number that cannot be read is named. -/
theorem ofVariables_of_not_readable (h : ¬ Readable settings) :
    ∃ before name value after, settings = before ++ (name, value) :: after ∧ Readable before ∧
      unreadable (name, value) = true ∧
      ofVariables settings = .error (.invalidVariable name value) := by
  cases hfind : settings.find? unreadable with
  | none => exact absurd (fun pair hpair => by simpa using List.find?_eq_none.mp hfind pair hpair) h
  | some first =>
    obtain ⟨hvalue, before, after, hsettings, hbefore⟩ := List.find?_eq_some_iff_append.mp hfind
    refine ⟨before, first.1, first.2, after, hsettings, fun pair hpair => ?_, hvalue, ?_⟩
    · simpa using hbefore pair hpair
    · rw [ofVariables_eq, hfind]

/-- What is accepted has been validated. -/
theorem validate_of_ofVariables {c : Config} (h : ofVariables settings = .ok c) :
    c.validate = .ok () := by
  rw [ofVariables_eq] at h
  split at h
  · cases h
  · cases hvalid : (overlay settings).validate with
    | error e =>
      rw [hvalid] at h
      cases h
    | ok done =>
      rw [hvalid] at h
      obtain rfl := Except.ok.inj h
      exact hvalid

/-- **The last one wins.** If every number can be read, then variables come to the validated
defaults, each overridden by the last variable for it. Variables with different names may change
places then, one that is set again may be left out, and variables that set no option may be put in
or taken out anywhere. Otherwise the first number that cannot be read is named, in the order of the
list. Whatever is accepted is valid. -/
theorem ofVariables_last_wins (settings : List (String × String)) :
    (Readable settings →
      ofVariables settings = (overlay settings).validate.map (fun _ => overlay settings) ∧
      (∀ other : List (String × String),
        (∀ name, other.filter (·.1 == name) = settings.filter (·.1 == name)) →
          ofVariables other = ofVariables settings) ∧
      ∀ before pair after, settings = before ++ pair :: after → pair.1 ∈ after.map (·.1) →
        ofVariables (before ++ after) = ofVariables settings) ∧
    (∀ other : List (String × String),
      (other.filter fun pair => pair.1 ∈ recognized) =
          (settings.filter fun pair => pair.1 ∈ recognized) →
        ofVariables other = ofVariables settings) ∧
    (¬ Readable settings →
      ∃ before name value after, settings = before ++ (name, value) :: after ∧ Readable before ∧
        unreadable (name, value) = true ∧
        ofVariables settings = .error (.invalidVariable name value)) ∧
    ∀ c, ofVariables settings = .ok c → c.validate = .ok () := by
  refine ⟨fun h => ⟨?_, fun other => h.ofVariables_reorder, ?_⟩, ?_, ofVariables_of_not_readable,
    fun c => validate_of_ofVariables⟩
  · rw [ofVariables_eq, h.find?_eq_none]
  · rintro before pair after rfl hagain
    exact h.ofVariables_erase hagain
  · intro other hother
    rw [← ofVariables_filter, hother, ofVariables_filter]

/-- A group is named twice, with variables of other programs in between. -/
def namedTwice : List (String × String) := [
  ("TASKLOG_GROUP_ID", "worker"), ("PATH", "/bin"), ("TASKLOG_INTAKE_CAPACITY", "+8"),
  ("TASKLOG_COLOR", "red"), ("TASKLOG_GROUP_ID", "crawler")]

/-- The second name counts, with or without the first one, and with or without the others. -/
theorem ofVariables_last_wins_twice :
    Readable namedTwice ∧
      ofVariables namedTwice = .ok { groupId := "crawler", intakeCapacity := 8 } ∧
      ofVariables namedTwice.tail = ofVariables namedTwice ∧
      ofVariables [("TASKLOG_GROUP_ID", "worker"), ("TASKLOG_INTAKE_CAPACITY", "+8"),
        ("TASKLOG_GROUP_ID", "crawler")] = ofVariables namedTwice := by
  have hread : Readable namedTwice := by
    unfold Readable
    decide +kernel
  obtain ⟨hreadable, hfilter, -⟩ := ofVariables_last_wins namedTwice
  obtain ⟨hvalidated, -, herase⟩ := hreadable hread
  have hoverlay : overlay namedTwice = { groupId := "crawler", intakeCapacity := 8 } := by
    decide +kernel
  refine ⟨hread, ?_, ?_, ?_⟩
  · rw [hvalidated, hoverlay]
    rfl
  · exact herase [] ("TASKLOG_GROUP_ID", "worker") namedTwice.tail rfl (by decide +kernel)
  · exact hfilter _ (by decide +kernel)

end Config

end WorkQueue
