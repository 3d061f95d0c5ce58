import WorkQueue.Json.Shape
import WorkQueue.Proofs.Json.Passing

/-!
# Records read back

A printed member is read as a change to its part of the record, a printed member of another name is
passed over, and a printed element is read as the next field. So what is read of a whole object is
told by what each of its members does, in whatever order they stand.

## Main definitions

* `RecordShape.Sets`: a field is read and takes the record a stage further
* `RecordShape.given`: the fields that an object names

## Main statements

* `RecordShape.parse_members`: a record read from an object
* `RecordShape.parse_elements`: a record read from a list
-/

namespace WorkQueue

open Reader

/-! ## Shapes -/

namespace Shape

variable {α β : Type} {shape : Shape α} {depth : Nat} {s rest : List UInt8} {v : α}

theorem read_text (t : String) (depth : Nat) :
    text.read depth (utf8 (Json.str t).render ++ rest) = .ok (t, rest) := by
  have hbytes : utf8 (Json.str t).render = Byte.ofChar '"' :: literalTail t := utf8_renderString t
  simp only [text, hbytes, List.cons_append, start, bind_apply,
    peekToken_cons (b := Byte.ofChar '"') (by decide), pure_apply, if_true, skip, List.tail_cons,
    stringBody_literal]

/-- A natural in its range is read as itself. -/
theorem read_unsigned {n largest : Nat} (label : String) (hn : n ≤ largest)
    (hlargest : largest ≤ maxWord64) (h : Ends rest) (depth : Nat) :
    (unsigned largest label).read depth (utf8 (Json.int n).render ++ rest) = .ok (n, rest) := by
  obtain ⟨b, tail, hb, hbegins⟩ := wholeBytes_head n
  have hbytes : utf8 (Json.int n).render = wholeBytes n := utf8_toString_int n
  have hinside : (0 : Int) ≤ n ∧ (n : Int) ≤ largest := by omega
  have hfits : Json.fitsWord n = true := by
    simp only [Json.fitsWord, Bool.and_eq_true, decide_eq_true_eq, minSigned64]
    omega
  have hblank : Byte.isBlank b = false := by
    rcases hbegins with rfl | hdigit
    · decide
    · exact (begins_of_isDigit hdigit).not_blank
  have hnumber := number_int hfits h hb
  rw [hbytes]
  rw [hb] at hnumber ⊢
  rw [List.cons_append] at hnumber ⊢
  simp only [unsigned, Shape.map, wholeBetween, start, bind_apply, peekToken_cons hblank, pure_apply,
    if_pos hbegins, hnumber, wholeBetween.check]
  rw [if_pos hinside]
  rfl

theorem read_map (f : α → β) (h : shape.read depth s = .ok (v, rest)) :
    (shape.map f).read depth s = .ok (f v, rest) := by
  show (shape.read depth >>= fun v => pure (f v)) s = _
  rw [bind_apply, h]
  rfl

theorem read_map_error (f : α → β) {e : JsonError} (h : shape.read depth s = .error e) :
    (shape.map f).read depth s = .error e := by
  show (shape.read depth >>= fun v => pure (f v)) s = _
  rw [bind_apply, h]

theorem read_optional_null : shape.optional.read depth (utf8 Json.null.render ++ rest) =
    .ok (none, rest) := rfl

/-- What begins with no null is read as it is without the option of one. -/
theorem read_optional {b : UInt8} (hblank : Byte.isBlank b = false) (hnull : b ≠ Byte.ofChar 'n')
    (h : shape.read depth (b :: s) = .ok (v, rest)) :
    shape.optional.read depth (b :: s) = .ok (some v, rest) := by
  simp only [optional, start, bind_apply, peekToken_cons hblank, pure_apply, if_neg hnull, h]

end Shape

namespace RecordShape

variable {α : Type} {shape : RecordShape α} {depth fuel : Nat} {k : String} {v : Json}
  {members : List (String × Json)} {field : Field α} {seen : List String} {a : α} {s : List UInt8}

/-! ## Members -/

/-- A printed member of a field is read as a change to the record. -/
theorem readMembers_cons (first : Bool) (hfield : shape.fields.find? (·.name == k) = some field)
    (hseen : seen.contains k = false) {change : α → α}
    (hread : field.change.read depth (utf8 v.render ++ (memberBytes false members ++ s)) =
      .ok (change, memberBytes false members ++ s)) :
    shape.readMembers depth (fuel + 1) first seen a (memberBytes first ((k, v) :: members) ++ s) =
      shape.readMembers depth fuel false (k :: seen) (change a) (memberBytes false members ++ s) := by
  simp only [readMembers, bind_apply, nextKey_cons, hfield, hseen, Bool.false_eq_true, if_false,
    colon_cons, hread]

/-- A member that its field does not take is what is wrong with the record. -/
theorem readMembers_error (first : Bool) (hfield : shape.fields.find? (·.name == k) = some field)
    (hseen : seen.contains k = false) {e : JsonError}
    (hread : field.change.read depth (utf8 v.render ++ (memberBytes false members ++ s)) = .error e) :
    shape.readMembers depth (fuel + 1) first seen a (memberBytes first ((k, v) :: members) ++ s) =
      .error e := by
  simp only [readMembers, bind_apply, nextKey_cons, hfield, hseen, Bool.false_eq_true, if_false,
    colon_cons, hread]

/-- A printed member that is no field's is passed over. -/
theorem readMembers_unknown (first : Bool) (hfield : shape.fields.find? (·.name == k) = none)
    (hrest : Ends (memberBytes false members ++ s)) :
    shape.readMembers depth (fuel + 1) first seen a (memberBytes first ((k, v) :: members) ++ s) =
      shape.readMembers depth fuel false seen a (memberBytes false members ++ s) := by
  simp only [readMembers, bind_apply, nextKey_cons, hfield, colon_cons, passValue_render v hrest]

/-- At the closing brace the record has to be complete. -/
theorem readMembers_nil (first : Bool) (hcomplete : shape.complete seen a = .ok a) :
    shape.readMembers depth (fuel + 1) first seen a (Byte.ofChar '\x7d' :: s) =
      .ok (a, Byte.ofChar '\x7d' :: s) := by
  simp only [readMembers, bind_apply, nextKey_close, hcomplete]
  rfl

/-! ## Whole texts -/

/-- A text that holds one record, with nothing behind it. -/
theorem parse_read (hdepth : depth = nestingLimit) {bytes : ByteArray} {result : Except JsonError α}
    (hread : shape.read depth bytes.data.toList = result.map fun a => (a, [])) :
    shape.parse bytes = result := by
  have hparse : shape.parse bytes = Prod.fst <$>
      (shape.read depth >>= fun x => finish >>= fun _ => pure x) bytes.data.toList := by
    rw [hdepth]
    rfl
  rw [hparse, bind_apply, hread]
  cases result <;> rfl

/-- A text that is one object. -/
theorem parse_object (hdepth : depth + 1 = nestingLimit) {bytes : ByteArray}
    (hbytes : bytes.data.toList =
      Byte.ofChar '\x7b' :: (memberBytes true members ++ [Byte.ofChar '\x7d']))
    {result : Except JsonError α}
    (hread : shape.readMembers depth (memberBytes true members ++ [Byte.ofChar '\x7d']).length true []
        shape.blank (memberBytes true members ++ [Byte.ofChar '\x7d']) =
      result.map fun a => (a, [Byte.ofChar '\x7d'])) :
    shape.parse bytes = result := by
  have hlist : ¬ Byte.ofChar '\x7b' = Byte.ofChar '[' := by decide
  refine parse_read hdepth ?_
  rw [hbytes]
  simp only [read, start, bind_apply, peekToken_cons (b := Byte.ofChar '\x7b') (by decide),
    pure_apply, if_neg hlist, if_true, skip, List.tail_cons, get_apply, hread]
  cases result <;> rfl

/-- A text that is one list. -/
theorem parse_list (hdepth : depth + 1 = nestingLimit) {bytes : ByteArray} {items : List Json}
    (hbytes : bytes.data.toList = Byte.ofChar '[' :: (itemBytes true items ++ [Byte.ofChar ']']))
    (hread : shape.readElements depth shape.fields 0 true shape.blank
      (itemBytes true items ++ [Byte.ofChar ']']) = .ok (a, [Byte.ofChar ']'])) :
    shape.parse bytes = .ok a := by
  refine parse_read hdepth ?_
  rw [hbytes]
  simp only [read, start, bind_apply, peekToken_cons (b := Byte.ofChar '[') (by decide),
    pure_apply, if_true, skip, List.tail_cons, hread]
  rfl

/-! ## Stage by stage -/

/-- The record goes through stages, one for each list of fields that have been set. A printed member
is read by its field and sets it. -/
def Sets (depth : Nat) (stage : List String → α) (field : Field α) (member : String × Json) : Prop :=
  ∀ rest, Ends rest → ∃ change,
    field.change.read depth (utf8 member.2.render ++ rest) = .ok (change, rest) ∧
      ∀ seen, change (stage seen) = stage (member.1 :: seen)

/-- The names in an object that are those of fields. -/
def given (shape : RecordShape α) (members : List (String × Json)) : List String :=
  (members.map (·.1)).filter fun k => (shape.fields.find? (·.name == k)).isSome

theorem isSome_find?_iff {fields : List (Field α)} {k : String} :
    (fields.find? (·.name == k)).isSome = true ↔ k ∈ fields.map (·.name) := by
  rw [List.find?_isSome, List.mem_map]
  simp only [beq_iff_eq]

/-- Of fields with different names the one of a member's name is its own. -/
theorem sets_of_find? {stage : List String → α} {fields : List (Field α)}
    (h : List.Forall₂ (Sets depth stage) fields members)
    (hnames : fields.map (·.name) = members.map (·.1)) (hnodup : (members.map (·.1)).Nodup)
    {m : String × Json} (hm : m ∈ members) (hfield : fields.find? (·.name == m.1) = some field) :
    Sets depth stage field m := by
  induction h with
  | nil => cases hm
  | @cons first m' fields members hsets _ ih =>
    simp only [List.map_cons, List.cons.injEq, List.nodup_cons] at hnames hnodup
    rcases List.mem_cons.mp hm with rfl | hmem
    · rw [List.find?_cons_of_pos (by simpa using hnames.1)] at hfield
      exact Option.some.inj hfield ▸ hsets
    · have hne : first.name ≠ m.1 := by
        rw [hnames.1]
        exact fun heq => hnodup.1 (heq ▸ List.mem_map_of_mem hmem)
      rw [List.find?_cons_of_neg (by simpa using hne)] at hfield
      exact ih hnames.2 hnodup.2 hmem hfield

/-- Without required fields every record is complete. -/
theorem complete_optional (h : ∀ field ∈ shape.fields, field.required = false)
    (seen : List String) (a : α) : shape.complete seen a = .ok a := by
  have hnone : (shape.fields.find? fun f => f.required && !seen.contains f.name) = none := by
    rw [List.find?_eq_none]
    intro field hfield
    simp [h field hfield]
  rw [complete, hnone]

variable {stage : List String → α}

/-- Members in any order set the fields they name, each once. -/
theorem readMembers_render (hoptional : ∀ field ∈ shape.fields, field.required = false)
    (hsets : ∀ m ∈ members, ∀ field, shape.fields.find? (·.name == m.1) = some field →
      Sets depth stage field m)
    (honce : (seen.reverse ++ shape.given members).Nodup) (first : Bool)
    (hfuel : members.length < fuel) :
    shape.readMembers depth fuel first seen (stage seen)
        (memberBytes first members ++ Byte.ofChar '\x7d' :: s) =
      .ok (stage ((shape.given members).reverse ++ seen), Byte.ofChar '\x7d' :: s) := by
  induction members generalizing fuel first seen with
  | nil =>
    obtain ⟨fuel, rfl⟩ : ∃ n, fuel = n + 1 := ⟨fuel - 1, by simp at hfuel; omega⟩
    have hbytes : memberBytes first [] = [] := by cases first <;> rfl
    rw [hbytes]
    exact readMembers_nil first (complete_optional hoptional _ _)
  | cons m members ih =>
    obtain ⟨k, v⟩ := m
    obtain ⟨fuel, rfl⟩ : ∃ n, fuel = n + 1 := ⟨fuel - 1, by simp at hfuel; omega⟩
    have hfuel' : members.length < fuel := Nat.lt_of_succ_lt_succ hfuel
    have hends := ends_members members s
    have hrest := fun m hm => hsets m (List.mem_cons_of_mem _ hm)
    cases hfield : shape.fields.find? (·.name == k) with
    | none =>
      have hgiven : shape.given ((k, v) :: members) = shape.given members := by
        simp [given, hfield]
      rw [hgiven] at honce ⊢
      rw [readMembers_unknown first hfield hends]
      exact ih hrest honce false hfuel'
    | some field =>
      have hgiven : shape.given ((k, v) :: members) = k :: shape.given members := by
        simp [given, hfield]
      rw [hgiven] at honce ⊢
      have hseen : seen.contains k = false := by
        have hnot := (List.nodup_append.mp honce).2.2
        rw [List.contains_eq_mem, decide_eq_false_iff_not]
        exact fun hmem => hnot k (List.mem_reverse.mpr hmem) k List.mem_cons_self rfl
      obtain ⟨change, hread, hchange⟩ := hsets (k, v) List.mem_cons_self field hfield _ hends
      rw [readMembers_cons first hfield hseen hread, hchange,
        ih hrest (by simpa using honce) false hfuel']
      simp

/-- Elements set the fields one after the other. -/
theorem readElements_render {fields : List (Field α)}
    (h : List.Forall₂ (Sets depth stage) fields members) (index : Nat) (first : Bool) :
    shape.readElements depth fields index first (stage seen)
        (itemBytes first (members.map (·.2)) ++ Byte.ofChar ']' :: s) =
      .ok (stage ((members.map (·.1)).reverse ++ seen), Byte.ofChar ']' :: s) := by
  induction h generalizing index first seen with
  | nil =>
    have hbytes : itemBytes first [] = [] := by cases first <;> rfl
    rw [List.map_nil, hbytes]
    rfl
  | @cons field m fields members hsets _ ih =>
    obtain ⟨change, hread, hchange⟩ := hsets _ (ends_items (members.map (·.2)) s)
    simp only [List.map_cons, readElements, bind_apply, nextItem_cons, if_true, hread, hchange]
    rw [ih]
    simp

theorem length_le_memberBytes (first : Bool) (members : List (String × Json)) :
    members.length ≤ (memberBytes first members).length := by
  induction members generalizing first with
  | nil => exact Nat.zero_le _
  | cons m members ih =>
    have hle := ih false
    cases first <;> simp only [memberBytes, List.length_cons, List.length_append] <;> omega

/-- A record read from an object with its fields in any order, beside members of other names. -/
theorem parse_members (hdepth : depth + 1 = nestingLimit)
    (hoptional : ∀ field ∈ shape.fields, field.required = false) (hblank : shape.blank = stage [])
    (hsets : ∀ m ∈ members, ∀ field, shape.fields.find? (·.name == m.1) = some field →
      Sets depth stage field m)
    (honce : (shape.given members).Nodup) :
    shape.parse (Json.obj members).render.toUTF8 = .ok (stage (shape.given members).reverse) := by
  refine parse_object hdepth (utf8_obj members) ?_
  have hlength := length_le_memberBytes true members
  have hfuel : members.length < (memberBytes true members ++ [Byte.ofChar '\x7d']).length := by
    rw [List.length_append, List.length_singleton]
    omega
  have honce' : (List.reverse [] ++ shape.given members).Nodup := honce
  rw [hblank, readMembers_render hoptional hsets honce' true hfuel, List.append_nil]
  rfl

/-- A record read from the list of its fields. -/
theorem parse_elements (hdepth : depth + 1 = nestingLimit) (hblank : shape.blank = stage [])
    (h : List.Forall₂ (Sets depth stage) shape.fields members) :
    shape.parse (Json.arr (members.map (·.2))).render.toUTF8 =
      .ok (stage (members.map (·.1)).reverse) := by
  refine parse_list hdepth (utf8_arr _) ?_
  rw [hblank, readElements_render h, List.append_nil]

end RecordShape

end WorkQueue
