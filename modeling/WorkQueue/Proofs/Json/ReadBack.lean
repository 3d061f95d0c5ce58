import WorkQueue.Proofs.Json.Numerals
import WorkQueue.Proofs.Json.Strings

/-!
# Values read back

A printed value is read as itself as long as the reader may open as many brackets as it nests, and is
refused for its depth otherwise. This holds of every value without doubles, whatever follows it, if
it does not go on with a number.

## Main definitions

* `Json.floatFree`: values without doubles
* `Reader.bounded`: what is read if it does not nest too deeply

## Main statements

* `Json.ofMembers_eq`: an object that is in order is made of its own members
* `Reader.value_render`: a printed value is read as itself exactly if it is not too deep
-/

namespace WorkQueue

namespace Json

mutual

/-- No number in the value is a double. -/
def floatFree : Json → Bool
  | .null | .bool _ | .int _ | .str _ => true
  | .float _ => false
  | .arr items => floatFreeItems items
  | .obj members => floatFreeMembers members

/-- No number in the elements is a double. -/
def floatFreeItems : List Json → Bool
  | [] => true
  | v :: rest => v.floatFree && floatFreeItems rest

/-- No number in the members' values is a double. -/
def floatFreeMembers : List (String × Json) → Bool
  | [] => true
  | (_, v) :: rest => v.floatFree && floatFreeMembers rest

end

/-! ## Objects -/

/-- A key behind all others goes to the end. -/
theorem insertMember_append {key : String} {value : Json} {members : List (String × Json)}
    (h : ∀ m ∈ members, m.1 < key) :
    insertMember key value members = members ++ [(key, value)] := by
  induction members with
  | nil => rfl
  | cons first rest ih =>
    obtain ⟨k, v⟩ := first
    have hlt : k < key := h (k, v) List.mem_cons_self
    have hnot : ¬ key < k := fun hlt' => String.lt_irrefl _ (String.lt_trans hlt hlt')
    have hne : ¬ key = k := fun heq => String.lt_irrefl _ (heq ▸ hlt)
    rw [insertMember, if_neg hnot, if_neg hne, ih fun m hm => h m (List.mem_cons_of_mem _ hm)]
    rfl

/-- An object whose keys ascend is made of its own members. -/
theorem ofMembers_eq {members : List (String × Json)} (h : members.Pairwise (·.1 < ·.1)) :
    ofMembers members = .obj members := by
  have hfold : ∀ (rest before : List (String × Json)), (before ++ rest).Pairwise (·.1 < ·.1) →
      rest.foldl (fun acc m => insertMember m.1 m.2 acc) before = before ++ rest := by
    intro rest
    induction rest with
    | nil => simp
    | cons first rest ih =>
      intro before hsorted
      obtain ⟨k, v⟩ := first
      have hbefore : ∀ m ∈ before, m.1 < k := fun m hm =>
        (List.pairwise_append.mp hsorted).2.2 m hm (k, v) List.mem_cons_self
      show rest.foldl _ (insertMember k v before) = _
      rw [insertMember_append hbefore, ih _ (by simpa using hsorted), List.append_assoc]
      rfl
  exact congrArg obj (hfold members [] h)

end Json

namespace Reader

/-! ## Printed lists and objects -/

/-- Elements, with a comma in front of each but the first one of a list. -/
def itemBytes : Bool → List Json → List UInt8
  | _, [] => []
  | true, v :: rest => utf8 v.render ++ itemBytes false rest
  | false, v :: rest => Byte.ofChar ',' :: (utf8 v.render ++ itemBytes false rest)

theorem utf8_renderItems (items : List Json) :
    utf8 (Json.renderItems items) = itemBytes true items := by
  induction items with
  | nil => rfl
  | cons v rest ih =>
    cases rest with
    | nil => rw [Json.renderItems, itemBytes, itemBytes, List.append_nil]
    | cons w rest =>
      rw [Json.renderItems, utf8_append, utf8_append, ih, List.append_assoc]
      rfl

theorem utf8_arr (items : List Json) : utf8 (Json.arr items).render =
    Byte.ofChar '[' :: (itemBytes true items ++ [Byte.ofChar ']']) := by
  rw [Json.render, utf8_append, utf8_append, utf8_renderItems]
  rfl

/-- Members, with a comma in front of each but the first one of an object. -/
def memberBytes : Bool → List (String × Json) → List UInt8
  | _, [] => []
  | true, (k, v) :: rest =>
    Byte.ofChar '"' :: (literalTail k ++ Byte.ofChar ':' :: (utf8 v.render ++ memberBytes false rest))
  | false, (k, v) :: rest =>
    Byte.ofChar ',' :: Byte.ofChar '"' ::
      (literalTail k ++ Byte.ofChar ':' :: (utf8 v.render ++ memberBytes false rest))

theorem utf8_renderMembers (members : List (String × Json)) :
    utf8 (Json.renderMembers members) = memberBytes true members := by
  induction members with
  | nil => rfl
  | cons m rest ih =>
    obtain ⟨k, v⟩ := m
    have hcolon : utf8 ":" = [Byte.ofChar ':'] := rfl
    cases rest with
    | nil =>
      rw [Json.renderMembers, utf8_append, utf8_append, utf8_renderString, hcolon, List.append_assoc,
        memberBytes, memberBytes, List.append_nil]
      rfl
    | cons n rest =>
      rw [Json.renderMembers, utf8_append, utf8_append, utf8_append, utf8_append, ih,
        utf8_renderString, hcolon]
      simp only [List.append_assoc]
      rfl

theorem utf8_obj (members : List (String × Json)) : utf8 (Json.obj members).render =
    Byte.ofChar '\x7b' :: (memberBytes true members ++ [Byte.ofChar '\x7d']) := by
  rw [Json.render, utf8_append, utf8_append, utf8_renderMembers]
  rfl

/-! ## Tokens -/

variable {s rest : List UInt8}

/-- A byte that is no blank is what a reader sees next. -/
theorem peekToken_cons {b : UInt8} (h : Byte.isBlank b = false) (s : List UInt8) :
    peekToken (b :: s) = .ok (some b, b :: s) := by
  simp [peekToken, h]

/-- A byte with which a value may begin. -/
structure Begins (b : UInt8) : Prop where
  not_blank : Byte.isBlank b = false
  not_close : b ≠ Byte.ofChar ']'

/-- A digit is none of the bytes that stand for something else. -/
theorem ne_of_isDigit {b c : UInt8} (h : Byte.isDigit b = true) (hc : Byte.isDigit c = false) :
    b ≠ c := by
  rintro rfl
  rw [hc] at h
  cases h

theorem begins_of_isDigit {b : UInt8} (h : Byte.isDigit b = true) : Begins b := by
  refine ⟨?_, ne_of_isDigit h (by decide)⟩
  simp [Byte.isBlank, ne_of_isDigit h (c := 0x20) (by decide), ne_of_isDigit h (c := 0x09) (by decide),
    ne_of_isDigit h (c := 0x0a) (by decide), ne_of_isDigit h (c := 0x0d) (by decide)]

/-- A number begins with its sign or a digit. -/
theorem Numeral.begins {t : List UInt8} (h : Numeral t) :
    ∃ b tail, t = b :: tail ∧ Begins b := by
  obtain ⟨b, tail, hb, rfl | hdigit⟩ := h.head
  · exact ⟨_, tail, hb, by decide, by decide⟩
  · exact ⟨b, tail, hb, begins_of_isDigit hdigit⟩

/-- A printed value begins with none of the bytes that separate values. -/
theorem begins_render (v : Json) : ∃ b tail, utf8 v.render = b :: tail ∧ Begins b := by
  cases v with
  | null => exact ⟨Byte.ofChar 'n', _, rfl, by decide, by decide⟩
  | bool b =>
    cases b with
    | true => exact ⟨Byte.ofChar 't', _, rfl, by decide, by decide⟩
    | false => exact ⟨Byte.ofChar 'f', _, rfl, by decide, by decide⟩
  | int n =>
    have hbytes : utf8 (Json.int n).render = wholeBytes n := utf8_toString_int n
    exact hbytes ▸ (numeral_int n).begins
  | float x => exact (numeral_text x).begins
  | str t => exact ⟨_, _, utf8_renderString t, by decide, by decide⟩
  | arr items => exact ⟨_, _, utf8_arr items, by decide, by decide⟩
  | obj members => exact ⟨_, _, utf8_obj members, by decide, by decide⟩

/-! ## Leaves -/

/-- A value that begins with no bracket is a leaf, however deep. -/
theorem value_leaf {b : UInt8} (hblank : Byte.isBlank b = false) (hlist : b ≠ Byte.ofChar '[')
    (hobject : b ≠ Byte.ofChar '\x7b') (depth : Nat) (s : List UInt8) :
    value depth (b :: s) = leaf b (b :: s) := by
  have hneither : ¬ (b = Byte.ofChar '[' ∨ b = Byte.ofChar '\x7b') := not_or.mpr ⟨hlist, hobject⟩
  cases depth <;>
    simp only [value, bind_apply, peekToken_cons hblank, if_neg hneither, if_neg hlist,
      if_neg hobject]

theorem leaf_number {b : UInt8} (h : b = Byte.ofChar '-' ∨ Byte.isDigit b = true) :
    leaf b = number b := by
  have hne : ∀ c ∈ ['"', 'n', 't', 'f'], b ≠ Byte.ofChar c := by
    intro c hc
    simp only [List.mem_cons, List.not_mem_nil, or_false] at hc
    rcases h with rfl | hdigit
    · rcases hc with rfl | rfl | rfl | rfl <;> decide
    · apply ne_of_isDigit hdigit
      rcases hc with rfl | rfl | rfl | rfl <;> decide
  rw [leaf, if_neg (hne '"' (by simp)), if_neg (hne 'n' (by simp)), if_neg (hne 't' (by simp)),
    if_neg (hne 'f' (by simp)), if_pos h]

theorem value_int {n : Int} (hn : Json.fitsWord n = true) (h : Ends rest) (depth : Nat) :
    value depth (utf8 (Json.int n).render ++ rest) = .ok (.int n, rest) := by
  obtain ⟨b, tail, hb, hbegins⟩ := wholeBytes_head n
  have hbytes : utf8 (Json.int n).render = wholeBytes n := utf8_toString_int n
  have hbrackets : b ≠ Byte.ofChar '[' ∧ b ≠ Byte.ofChar '\x7b' := by
    rcases hbegins with rfl | hdigit
    · decide
    · exact ⟨ne_of_isDigit hdigit (by decide), ne_of_isDigit hdigit (by decide)⟩
  have hblank : Byte.isBlank b = false := by
    rcases hbegins with rfl | hdigit
    · decide
    · exact (begins_of_isDigit hdigit).not_blank
  have hread := number_int hn h hb
  rw [hbytes]
  rw [hb] at hread ⊢
  rw [List.cons_append, value_leaf hblank hbrackets.1 hbrackets.2, leaf_number hbegins]
  exact hread

theorem value_str (t : String) (depth : Nat) :
    value depth (utf8 (Json.str t).render ++ rest) = .ok (.str t, rest) := by
  have hbytes : utf8 (Json.str t).render = Byte.ofChar '"' :: literalTail t := utf8_renderString t
  rw [hbytes, List.cons_append, value_leaf (by decide) (by decide) (by decide), leaf, if_pos rfl]
  simp only [bind_apply, skip, List.tail_cons, stringBody_literal]
  rfl

theorem value_null (depth : Nat) : value depth (utf8 Json.null.render ++ rest) = .ok (.null, rest) := by
  show value depth (Byte.ofChar 'n' :: _) = _
  rw [value_leaf (by decide) (by decide) (by decide)]
  rfl

theorem value_bool (b : Bool) (depth : Nat) :
    value depth (utf8 (Json.bool b).render ++ rest) = .ok (.bool b, rest) := by
  cases b with
  | true =>
    show value depth (Byte.ofChar 't' :: _) = _
    rw [value_leaf (by decide) (by decide) (by decide)]
    rfl
  | false =>
    show value depth (Byte.ofChar 'f' :: _) = _
    rw [value_leaf (by decide) (by decide) (by decide)]
    rfl

/-! ## Lists and objects -/

/-- What is read if it does not nest too deeply. -/
def bounded {α : Type} (fits : Prop) [Decidable fits] (a : α) (rest : List UInt8) :
    Except JsonError (α × List UInt8) :=
  if fits then .ok (a, rest) else .error .tooDeep

/-- A number ends in front of a comma and of a closing bracket. -/
theorem ends_of_head {b : UInt8} (h : b ∈ [',', ']', '\x7d'].map Byte.ofChar) (s : List UInt8) :
    Ends (b :: s) := by
  intro b' hb'
  obtain rfl := Option.some.inj hb'
  simp only [List.map_cons, List.map_nil, List.mem_cons, List.not_mem_nil, or_false] at h
  rcases h with rfl | rfl | rfl <;> decide

theorem ends_items (items : List Json) (s : List UInt8) :
    Ends (itemBytes false items ++ Byte.ofChar ']' :: s) := by
  cases items with
  | nil => exact ends_of_head (by decide) s
  | cons v rest => exact ends_of_head (by decide) _

theorem ends_members (members : List (String × Json)) (s : List UInt8) :
    Ends (memberBytes false members ++ Byte.ofChar '\x7d' :: s) := by
  cases members with
  | nil => exact ends_of_head (by decide) s
  | cons m rest => exact ends_of_head (by decide) _

theorem nextItem_close (first : Bool) (s : List UInt8) :
    nextItem first (Byte.ofChar ']' :: s) = .ok (false, Byte.ofChar ']' :: s) := by
  cases first <;> rfl

/-- There is another element where one has been printed. -/
theorem nextItem_cons (first : Bool) (v : Json) (items : List Json) (s : List UInt8) :
    nextItem first (itemBytes first (v :: items) ++ s) =
      .ok (true, utf8 v.render ++ (itemBytes false items ++ s)) := by
  obtain ⟨b, tail, hv, hb⟩ := begins_render v
  have hclose : ¬ Byte.ofChar ',' = Byte.ofChar ']' := by decide
  cases first with
  | true =>
    simp only [itemBytes, hv, List.append_assoc, List.cons_append, nextItem, bind_apply,
      peekToken_cons hb.not_blank, if_neg hb.not_close, if_true]
    rfl
  | false =>
    simp only [itemBytes, hv, List.append_assoc, List.cons_append, nextItem, bind_apply,
      peekToken_cons (b := Byte.ofChar ',') (by decide), if_neg hclose, Bool.false_eq_true, if_false,
      if_true, skip, List.tail_cons, peekToken_cons hb.not_blank, if_neg hb.not_close]
    rfl

theorem nextKey_close (first : Bool) (s : List UInt8) :
    nextKey first (Byte.ofChar '\x7d' :: s) = .ok (none, Byte.ofChar '\x7d' :: s) := by
  cases first <;> rfl

/-- There is another key where a member has been printed, and it is the member's. -/
theorem nextKey_cons (first : Bool) (k : String) (v : Json) (members : List (String × Json))
    (s : List UInt8) : nextKey first (memberBytes first ((k, v) :: members) ++ s) =
      .ok (some k, Byte.ofChar ':' :: (utf8 v.render ++ (memberBytes false members ++ s))) := by
  have hquote : ¬ Byte.ofChar '"' = Byte.ofChar '\x7d' := by decide
  have hcomma : ¬ Byte.ofChar ',' = Byte.ofChar '\x7d' := by decide
  cases first with
  | true =>
    simp only [memberBytes, List.append_assoc, List.cons_append, nextKey, nextKey.key, bind_apply,
      peekToken_cons (b := Byte.ofChar '"') (by decide), if_neg hquote, if_true, skip,
      List.tail_cons, stringBody_literal]
    rfl
  | false =>
    simp only [memberBytes, List.append_assoc, List.cons_append, nextKey, nextKey.key, bind_apply,
      peekToken_cons (b := Byte.ofChar ',') (by decide), if_neg hcomma, Bool.false_eq_true, if_false,
      if_true, skip, List.tail_cons, peekToken_cons (b := Byte.ofChar '"') (by decide),
      stringBody_literal]
    rfl

theorem colon_cons (s : List UInt8) : colon (Byte.ofChar ':' :: s) = .ok ((), s) := rfl

section

variable {depth fuel : Nat} {v : Json} {items : List Json} {members : List (String × Json)}

/-- A list is read if its first element and the others are. -/
theorem items_cons {first : Bool} {s t u : List UInt8}
    (hnext : nextItem first s = .ok (true, utf8 v.render ++ t))
    (hvalue : value depth (utf8 v.render ++ t) = bounded (v.nesting ≤ depth) v t)
    (hrest : Reader.items (value depth) fuel false t =
      bounded (Json.nestingItems items ≤ depth) items u) :
    Reader.items (value depth) (fuel + 1) first s =
      bounded (Json.nestingItems (v :: items) ≤ depth) (v :: items) u := by
  have hmax : Json.nestingItems (v :: items) ≤ depth ↔
      v.nesting ≤ depth ∧ Json.nestingItems items ≤ depth := by
    rw [Json.nestingItems]
    exact Nat.max_le
  simp only [Reader.items, bind_apply, hnext, hvalue, if_true]
  by_cases hv : v.nesting ≤ depth
  · by_cases hi : Json.nestingItems items ≤ depth
    · simp only [bounded, if_pos hv, hrest, if_pos hi, if_pos (hmax.mpr ⟨hv, hi⟩)]
      rfl
    · simp only [bounded, if_pos hv, hrest, if_neg hi, if_neg fun h => hi (hmax.mp h).2]
  · simp only [bounded, if_neg hv, if_neg fun h => hv (hmax.mp h).1]

/-- An object is read if its first member's value and the other members are. -/
theorem members_cons {first : Bool} {k : String} {s t u : List UInt8}
    (hnext : nextKey first s = .ok (some k, Byte.ofChar ':' :: (utf8 v.render ++ t)))
    (hvalue : value depth (utf8 v.render ++ t) = bounded (v.nesting ≤ depth) v t)
    (hrest : Reader.members (value depth) fuel false t =
      bounded (Json.nestingMembers members ≤ depth) members u) :
    Reader.members (value depth) (fuel + 1) first s =
      bounded (Json.nestingMembers ((k, v) :: members) ≤ depth) ((k, v) :: members) u := by
  have hmax : Json.nestingMembers ((k, v) :: members) ≤ depth ↔
      v.nesting ≤ depth ∧ Json.nestingMembers members ≤ depth := by
    rw [Json.nestingMembers]
    exact Nat.max_le
  simp only [Reader.members, bind_apply, hnext, colon_cons, hvalue]
  by_cases hv : v.nesting ≤ depth
  · by_cases hm : Json.nestingMembers members ≤ depth
    · simp only [bounded, if_pos hv, hrest, if_pos hm, if_pos (hmax.mpr ⟨hv, hm⟩)]
      rfl
    · simp only [bounded, if_pos hv, hrest, if_neg hm, if_neg fun h => hm (hmax.mp h).2]
  · simp only [bounded, if_neg hv, if_neg fun h => hv (hmax.mp h).1]

/-- A list is read if its elements are and no bracket is missing. -/
theorem value_arr (hitems : ∀ depth,
      Reader.items (value depth) (itemBytes true items ++ Byte.ofChar ']' :: rest).length true
        (itemBytes true items ++ Byte.ofChar ']' :: rest) =
      bounded (Json.nestingItems items ≤ depth) items (Byte.ofChar ']' :: rest)) :
    value depth (utf8 (Json.arr items).render ++ rest) =
      bounded ((Json.arr items).nesting ≤ depth) (.arr items) rest := by
  have hbytes : utf8 (Json.arr items).render ++ rest =
      Byte.ofChar '[' :: (itemBytes true items ++ Byte.ofChar ']' :: rest) := by
    rw [utf8_arr, List.cons_append, List.append_assoc]
    rfl
  have hpeek := peekToken_cons (b := Byte.ofChar '[') (by decide)
    (itemBytes true items ++ Byte.ofChar ']' :: rest)
  rw [hbytes, Json.nesting]
  cases depth with
  | zero =>
    simp only [value, bind_apply, hpeek, true_or, if_true]
    rfl
  | succ depth =>
    simp only [value, bind_apply, hpeek, if_true, skip, List.tail_cons, get_apply, hitems depth,
      bounded, Nat.add_le_add_iff_right]
    by_cases h : Json.nestingItems items ≤ depth
    · simp only [if_pos h]
      rfl
    · simp only [if_neg h]

/-- An object is read if its members are and no bracket is missing. -/
theorem value_obj (hsorted : members.Pairwise (·.1 < ·.1)) (hmembers : ∀ depth,
      Reader.members (value depth) (memberBytes true members ++ Byte.ofChar '\x7d' :: rest).length
        true (memberBytes true members ++ Byte.ofChar '\x7d' :: rest) =
      bounded (Json.nestingMembers members ≤ depth) members (Byte.ofChar '\x7d' :: rest)) :
    value depth (utf8 (Json.obj members).render ++ rest) =
      bounded ((Json.obj members).nesting ≤ depth) (.obj members) rest := by
  have hbytes : utf8 (Json.obj members).render ++ rest =
      Byte.ofChar '\x7b' :: (memberBytes true members ++ Byte.ofChar '\x7d' :: rest) := by
    rw [utf8_obj, List.cons_append, List.append_assoc]
    rfl
  have hpeek := peekToken_cons (b := Byte.ofChar '\x7b') (by decide)
    (memberBytes true members ++ Byte.ofChar '\x7d' :: rest)
  have hlist : ¬ Byte.ofChar '\x7b' = Byte.ofChar '[' := by decide
  rw [hbytes, Json.nesting]
  cases depth with
  | zero =>
    simp only [value, bind_apply, hpeek, or_true, if_true]
    rfl
  | succ depth =>
    simp only [value, bind_apply, hpeek, if_neg hlist, if_true, skip, List.tail_cons, get_apply,
      hmembers depth, bounded, Nat.add_le_add_iff_right]
    by_cases h : Json.nestingMembers members ≤ depth
    · simp only [if_pos h, ← Json.ofMembers_eq hsorted]
      rfl
    · simp only [if_neg h]

end

mutual

/-- A printed value is read as itself exactly if it is not too deep. -/
theorem value_render : ∀ (v : Json), v.Normal → v.floatFree = true → ∀ (depth : Nat)
    (rest : List UInt8), Ends rest →
      value depth (utf8 v.render ++ rest) = bounded (v.nesting ≤ depth) v rest
  | .null, _, _, depth, rest, _ => value_null depth
  | .bool b, _, _, depth, rest, _ => value_bool b depth
  | .int n, hn, _, depth, rest, hrest => value_int hn hrest depth
  | .str t, _, _, depth, rest, _ => value_str t depth
  | .float _, _, hfree, _, _, _ => by simp [Json.floatFree] at hfree
  | .arr items, hnormal, hfree, _, rest, _ =>
    value_arr fun depth => items_render items hnormal hfree depth _ true rest (Nat.le_refl _)
  | .obj members, hnormal, hfree, _, rest, _ =>
    value_obj hnormal.1 fun depth =>
      members_render members hnormal.2 hfree depth _ true rest (Nat.le_refl _)

/-- Printed elements are read up to the end of their list. -/
theorem items_render : ∀ (items : List Json), Json.NormalItems items →
    Json.floatFreeItems items = true → ∀ (depth fuel : Nat) (first : Bool) (rest : List UInt8),
      (itemBytes first items ++ Byte.ofChar ']' :: rest).length ≤ fuel →
        Reader.items (value depth) fuel first (itemBytes first items ++ Byte.ofChar ']' :: rest) =
          bounded (Json.nestingItems items ≤ depth) items (Byte.ofChar ']' :: rest)
  | [], _, _, depth, 0, first, rest, hfuel => by cases first <;> simp [itemBytes] at hfuel
  | [], _, _, depth, fuel + 1, first, rest, hfuel => by
    have hbytes : itemBytes first [] = [] := by cases first <;> rfl
    rw [hbytes, List.nil_append]
    simp only [Reader.items, bind_apply, nextItem_close]
    rfl
  | v :: items, _, _, depth, 0, first, rest, hfuel => by simp at hfuel
  | v :: items, hnormal, hfree, depth, fuel + 1, first, rest, hfuel => by
    simp only [Json.floatFreeItems, Bool.and_eq_true] at hfree
    have hnext := nextItem_cons first v items (Byte.ofChar ']' :: rest)
    have hvalue := value_render v hnormal.1 hfree.1 depth _ (ends_items items rest)
    obtain ⟨b, tail, hv, -⟩ := begins_render v
    have hfuel' : (itemBytes false items ++ Byte.ofChar ']' :: rest).length ≤ fuel := by
      cases first <;>
        simp only [itemBytes, hv, List.cons_append, List.length_cons, List.length_append] at hfuel ⊢ <;>
          omega
    exact items_cons hnext hvalue (items_render items hnormal.2 hfree.2 depth fuel false rest hfuel')

/-- Printed members are read up to the end of their object. -/
theorem members_render : ∀ (members : List (String × Json)), Json.NormalMembers members →
    Json.floatFreeMembers members = true → ∀ (depth fuel : Nat) (first : Bool) (rest : List UInt8),
      (memberBytes first members ++ Byte.ofChar '\x7d' :: rest).length ≤ fuel →
        Reader.members (value depth) fuel first
            (memberBytes first members ++ Byte.ofChar '\x7d' :: rest) =
          bounded (Json.nestingMembers members ≤ depth) members (Byte.ofChar '\x7d' :: rest)
  | [], _, _, depth, 0, first, rest, hfuel => by cases first <;> simp [memberBytes] at hfuel
  | [], _, _, depth, fuel + 1, first, rest, hfuel => by
    have hbytes : memberBytes first [] = [] := by cases first <;> rfl
    rw [hbytes, List.nil_append]
    simp only [Reader.members, bind_apply, nextKey_close]
    rfl
  | (k, v) :: members, _, _, depth, 0, first, rest, hfuel => by simp at hfuel
  | (k, v) :: members, hnormal, hfree, depth, fuel + 1, first, rest, hfuel => by
    simp only [Json.floatFreeMembers, Bool.and_eq_true] at hfree
    have hnext := nextKey_cons first k v members (Byte.ofChar '\x7d' :: rest)
    have hvalue := value_render v hnormal.1 hfree.1 depth _ (ends_members members rest)
    have hfuel' : (memberBytes false members ++ Byte.ofChar '\x7d' :: rest).length ≤ fuel := by
      cases first <;>
        simp only [memberBytes, List.cons_append, List.length_cons, List.length_append] at hfuel ⊢ <;>
          omega
    exact members_cons hnext hvalue
      (members_render members hnormal.2 hfree.2 depth fuel false rest hfuel')

end

end Reader

end WorkQueue
