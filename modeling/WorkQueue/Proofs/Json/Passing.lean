import WorkQueue.Json.Skip
import WorkQueue.Proofs.Json.Numerals
import WorkQueue.Proofs.Json.ReadBack

/-!
# Values passed over

A printed value is passed over as a whole, whatever it is: doubles and numbers beyond any word
included, and however deep it nests. What stands behind it is left as it is.

The pass keeps the brackets that are still open on a list, so passing over a value is said of a
value inside any of them: if the pass goes through from the separator behind the value, it goes
through from the value. Its fuel is spent on bytes, at most two for each.

## Main definitions

* `Reader.PassesString`: a literal is passed over up to its closing quote
* `Reader.Passes`: a pass goes through with the given brackets open

## Main statements

* `Reader.passNumber_unsigned`: what keeps to the grammar of numbers is passed over
* `Reader.passValue_render`: a printed value is passed over
-/

namespace WorkQueue

namespace Reader

variable {s rest after : List UInt8}

/-! ## Literals -/

/-- Passing over the bytes in front of a closing quote leaves `after`. -/
def PassesString (s after : List UInt8) : Prop :=
  ∀ fuel, s.length ≤ fuel → passStringBytes fuel s = .ok ((), after)

namespace PassesString

theorem quote (after : List UInt8) : PassesString (Byte.ofChar '"' :: after) after := by
  intro fuel hfuel
  cases fuel with
  | zero => simp at hfuel
  | succ fuel => rfl

theorem plain {b : UInt8} (hb : Plain b) (h : PassesString s after) :
    PassesString (b :: s) after := by
  obtain ⟨hquote, hslash, hcontrol⟩ := hb
  intro fuel hfuel
  cases fuel with
  | zero => simp at hfuel
  | succ fuel =>
    have hrest := h fuel (by simpa using hfuel)
    simp only [passStringBytes, bind_apply, next?, if_neg hquote, if_neg hslash, if_neg hcontrol,
      hrest]

theorem plains {bs : List UInt8} (hbs : ∀ b ∈ bs, Plain b) (h : PassesString s after) :
    PassesString (bs ++ s) after := by
  induction bs with
  | nil => exact h
  | cons b bs ih =>
    exact plain (hbs b List.mem_cons_self) (ih fun b' hb' => hbs b' (List.mem_cons_of_mem _ hb'))

/-- An escape of one letter. -/
theorem letter {b : UInt8} (hb : b ∈ passStringBytes.simpleEscapes) (h : PassesString s after) :
    PassesString (Byte.ofChar '\\' :: b :: s) after := by
  have hslash : ¬ Byte.ofChar '\\' = Byte.ofChar '"' := by decide
  have hunit : ¬ b = Byte.ofChar 'u' := by
    rintro rfl
    exact absurd hb (by decide)
  intro fuel hfuel
  cases fuel with
  | zero => simp at hfuel
  | succ fuel =>
    have hrest := h fuel (by simp only [List.length_cons] at hfuel; omega)
    have hknown : passStringBytes.simpleEscapes.contains b = true := List.contains_iff_mem.mpr hb
    simp only [passStringBytes, bind_apply, next?, if_neg hslash, if_true, if_neg hunit, hknown,
      not_true, if_false, hrest]

/-- An escape by number. -/
theorem unit {t : List UInt8} {n : Nat} (hunit : hexUnit (t ++ s) = .ok (n, s))
    (h : PassesString s after) :
    PassesString (Byte.ofChar '\\' :: Byte.ofChar 'u' :: (t ++ s)) after := by
  have hslash : ¬ Byte.ofChar '\\' = Byte.ofChar '"' := by decide
  intro fuel hfuel
  cases fuel with
  | zero => simp at hfuel
  | succ fuel =>
    have hrest := h fuel (by simp only [List.length_cons, List.length_append] at hfuel; omega)
    simp only [passStringBytes, bind_apply, next?, if_neg hslash, if_true, hunit, hrest]

/-- The letters that the printer uses are known. -/
theorem mem_simpleEscapes {l : Char} (hl : l ∈ ['"', '\\', 'b', 'f', 'n', 'r', 't']) :
    Byte.ofChar l ∈ passStringBytes.simpleEscapes := by
  simp only [List.mem_cons, List.not_mem_nil, or_false] at hl
  rcases hl with rfl | rfl | rfl | rfl | rfl | rfl | rfl <;> decide

/-- What the printer has written for a character is passed over. -/
theorem char (c : Char) (h : PassesString s after) :
    PassesString (utf8 (Json.escapeChar c) ++ s) after := by
  have hwritten := written_escapeChar c
  generalize utf8 (Json.escapeChar c) = written at hwritten ⊢
  cases hwritten with
  | plain hplain => exact h.plains hplain
  | letter hl _ => exact h.letter (mem_simpleEscapes hl)
  | control hlt _ => exact h.unit (hexUnit_control hlt s)

end PassesString

theorem passesString_chars (l : List Char) (after : List UInt8) :
    PassesString ((l.map Json.escapeChar).flatMap utf8 ++ Byte.ofChar '"' :: after) after := by
  induction l with
  | nil => exact .quote after
  | cons c rest ih =>
    simp only [List.map_cons, List.flatMap_cons, List.append_assoc]
    exact ih.char c

/-- The literal of a text is passed over. -/
theorem passString_literal (t : String) (after : List UInt8) :
    passString (literalTail t ++ after) = .ok ((), after) := by
  have hpass := passesString_chars t.toList after (literalTail t ++ after).length (by
    simp [literalTail])
  simp only [passString, bind_apply, get_apply]
  rw [← hpass]
  simp only [literalTail, List.append_assoc, List.cons_append, List.nil_append]

/-! ## Numbers -/

theorem digits_append {ds : List UInt8} (h : Digits ds)
    (hstop : ∀ b, rest.head? = some b → Byte.isDigit b = false) :
    digits (ds ++ rest) = .ok (ds, rest) := by
  obtain ⟨htake, hdrop⟩ := takeWhile_digits h.all hstop
  simp only [digits, htake, hdrop]

theorem Digits.isEmpty {ds : List UInt8} (h : Digits ds) : ¬ ds.isEmpty = true := by
  simpa using h.ne_nil

/-- Behind the digits of a number comes no digit. -/
theorem Exponent.stops {exponent : List UInt8} (h : Exponent exponent) (hrest : Ends rest) :
    ∀ b, (exponent ++ rest).head? = some b → Byte.isDigit b = false ∧ b ≠ Byte.ofChar '.' := by
  intro b hb
  cases h with
  | none => exact ⟨(hrest b hb).1, (hrest b hb).2.1⟩
  | digits hsign hds =>
    obtain rfl := Option.some.inj hb
    decide

theorem Fraction.stops {fraction exponent : List UInt8} (h : Fraction fraction)
    (hexponent : Exponent exponent) (hrest : Ends rest) :
    ∀ b, (fraction ++ (exponent ++ rest)).head? = some b → Byte.isDigit b = false := by
  intro b hb
  cases h with
  | none => exact (hexponent.stops hrest b hb).1
  | digits hds =>
    obtain rfl := Option.some.inj hb
    decide

theorem passExponent_digits {sign : UInt8} {ds : List UInt8}
    (hsign : sign = Byte.ofChar '-' ∨ sign = Byte.ofChar '+') (hds : Digits ds) (hrest : Ends rest) :
    passExponent (Byte.ofChar 'e' :: sign :: (ds ++ rest)) = .ok ((), rest) := by
  have hdigits := digits_append hds fun b hb => (hrest b hb).1
  have hmark : (some sign == some (Byte.ofChar '-') || some sign == some (Byte.ofChar '+')) =
      true := by
    rcases hsign with rfl | rfl <;> decide
  simp only [passExponent, bind_apply, skip, List.tail_cons, peek?, List.head?_cons, hmark, if_true,
    hdigits, if_neg hds.isEmpty]
  rfl

/-- A pass over a number looks for an exponent at its end. -/
def passMark : Reader Unit := do
  let mark ← peek?
  if mark == some (Byte.ofChar 'e') || mark == some (Byte.ofChar 'E') then passExponent

theorem passMark_exponent {exponent : List UInt8} (h : Exponent exponent) (hrest : Ends rest) :
    passMark (exponent ++ rest) = .ok ((), rest) := by
  cases h with
  | none =>
    simp only [passMark, bind_apply, peek?, List.nil_append, hrest.no_mark (c := 'e') (by simp),
      hrest.no_mark (c := 'E') (by simp), Bool.or_self, Bool.false_eq_true, if_false]
    rfl
  | digits hsign hds => exact passExponent_digits hsign hds hrest

/-- What keeps to the grammar of numbers is passed over. -/
theorem passNumber_unsigned (h : Unsigned s) (hrest : Ends rest) :
    passNumber (s ++ rest) = .ok ((), rest) := by
  obtain @⟨whole, fraction, exponent, hwhole, hfraction, hexponent⟩ := h
  have hdigits := digits_append hwhole.toDigits (hfraction.stops hexponent hrest)
  rw [List.append_assoc, List.append_assoc]
  simp only [passNumber, bind_apply, hdigits, if_neg hwhole.isEmpty, if_neg hwhole.no_zero]
  cases hfraction with
  | none =>
    have hmark : ((exponent ++ rest).head? == some (Byte.ofChar '.')) = false :=
      beq_eq_false_iff_ne.mpr fun hpoint => (hexponent.stops hrest _ hpoint).2 rfl
    simp only [List.nil_append, peek?, hmark, Bool.false_eq_true, if_false]
    exact passMark_exponent hexponent hrest
  | @digits ds hds =>
    have hdigits' := digits_append hds fun b hb => (hexponent.stops hrest b hb).1
    simp only [List.cons_append, peek?, List.head?_cons, beq_self_eq_true, if_true, bind_apply,
      skip, List.tail_cons, hdigits', if_neg hds.isEmpty]
    exact passMark_exponent hexponent hrest

theorem passLeaf_numeral {b : UInt8} {tail : List UInt8} (h : Numeral (b :: tail))
    (hrest : Ends rest) : passLeaf b (b :: (tail ++ rest)) = .ok ((), rest) := by
  generalize hs : b :: tail = s at h
  cases h with
  | negative h =>
    obtain ⟨rfl, rfl⟩ := List.cons.inj hs
    exact passNumber_unsigned h hrest
  | unsigned h =>
    subst hs
    obtain ⟨b', tail', heq, hb⟩ := h.head
    obtain ⟨rfl, -⟩ := List.cons.inj heq
    have hne : ∀ c : Char, Byte.isDigit (Byte.ofChar c) = false → b ≠ Byte.ofChar c :=
      fun c hc => ne_of_isDigit hb hc
    rw [passLeaf, if_neg (hne '"' (by decide)), if_neg (hne 'n' (by decide)),
      if_neg (hne 't' (by decide)), if_neg (hne 'f' (by decide)), if_neg (hne '-' (by decide)),
      if_pos hb]
    exact passNumber_unsigned h hrest

/-! ## Brackets -/

/-- The rounds that a pass may begin without taking a byte. -/
def slack : Expecting → Nat
  | .content => 2
  | .value | .separator => 1

/-- With the given brackets open, what is left of their values is passed over and leaves `after`. -/
def Passes (expecting : Expecting) (stack : List Bracket) (s after : List UInt8) : Prop :=
  ∀ fuel, 2 * s.length + slack expecting ≤ fuel →
    passFrom fuel expecting stack s = .ok ((), after)

namespace Passes

variable {stack : List Bracket} {bracket : Bracket}

/-- Where no bracket is open, nothing is left. -/
theorem done (s : List UInt8) : Passes .separator [] s s := by
  intro fuel hfuel
  cases fuel with
  | zero => simp [slack] at hfuel
  | succ fuel => rfl

/-- Behind a value the pass goes on, unless no bracket is open. -/
theorem resume (h : Passes .separator stack rest after) (fuel : Nat)
    (hfuel : 2 * rest.length + 1 ≤ fuel) :
    (if stack.isEmpty then pure () else passFrom fuel .separator stack) rest = .ok ((), after) := by
  cases stack with
  | nil => exact (done rest fuel hfuel).symm.trans (h fuel hfuel)
  | cons bracket stack => exact h fuel hfuel

theorem leaf {b : UInt8} (hblank : Byte.isBlank b = false) (hlist : b ≠ Byte.ofChar '[')
    (hobject : b ≠ Byte.ofChar '\x7b') (hleaf : passLeaf b (b :: s) = .ok ((), rest))
    (hlength : rest.length ≤ s.length) (h : Passes .separator stack rest after) :
    Passes .value stack (b :: s) after := by
  intro fuel hfuel
  cases fuel with
  | zero => simp [slack] at hfuel
  | succ fuel =>
    have hrest := h.resume fuel (by
      simp only [List.length_cons, slack] at hfuel
      omega)
    simp only [passFrom, bind_apply, peekToken_cons hblank, if_neg hlist, if_neg hobject, hleaf]
    exact hrest

theorem openList (h : Passes .content (.list :: stack) s after) :
    Passes .value stack (Byte.ofChar '[' :: s) after := by
  intro fuel hfuel
  cases fuel with
  | zero => simp [slack] at hfuel
  | succ fuel =>
    have hcontent := h fuel (by simp only [List.length_cons, slack] at hfuel ⊢; omega)
    simp only [passFrom, bind_apply, peekToken_cons (b := Byte.ofChar '[') (by decide), if_true,
      skip, List.tail_cons, hcontent]

theorem openObject (h : Passes .content (.object :: stack) s after) :
    Passes .value stack (Byte.ofChar '\x7b' :: s) after := by
  have hlist : ¬ Byte.ofChar '\x7b' = Byte.ofChar '[' := by decide
  intro fuel hfuel
  cases fuel with
  | zero => simp [slack] at hfuel
  | succ fuel =>
    have hcontent := h fuel (by simp only [List.length_cons, slack] at hfuel ⊢; omega)
    simp only [passFrom, bind_apply, peekToken_cons (b := Byte.ofChar '\x7b') (by decide),
      if_neg hlist, if_true, skip, List.tail_cons, hcontent]

theorem close (bracket : Bracket) {expecting : Expecting} (hexpecting : expecting ≠ .value)
    (h : Passes .separator stack s after) :
    Passes expecting (bracket :: stack) (bracket.close :: s) after := by
  have hblank : Byte.isBlank bracket.close = false := by cases bracket <;> decide
  intro fuel hfuel
  cases fuel with
  | zero => simp at hfuel
  | succ fuel =>
    have hrest := h.resume fuel (by
      simp only [List.length_cons] at hfuel
      omega)
    cases expecting with
    | value => exact absurd rfl hexpecting
    | content | separator =>
      simp only [passFrom, bind_apply, peekToken_cons hblank, if_true, skip, List.tail_cons]
      exact hrest

/-- The first value inside a bracket. -/
theorem first {b : UInt8} {t : List UInt8} (hblank : Byte.isBlank b = false)
    (hclose : b ≠ bracket.close) (hkey : passKey bracket (b :: s) = .ok ((), t))
    (hlength : t.length ≤ s.length + 1) (h : Passes .value (bracket :: stack) t after) :
    Passes .content (bracket :: stack) (b :: s) after := by
  intro fuel hfuel
  cases fuel with
  | zero => simp [slack] at hfuel
  | succ fuel =>
    have hvalue := h fuel (by simp only [List.length_cons, slack] at hfuel ⊢; omega)
    simp only [passFrom, bind_apply, peekToken_cons hblank, if_neg hclose, if_true, hkey, hvalue]

/-- A value behind another one. -/
theorem next {t : List UInt8} (hkey : passKey bracket s = .ok ((), t))
    (hlength : t.length ≤ s.length) (h : Passes .value (bracket :: stack) t after) :
    Passes .separator (bracket :: stack) (Byte.ofChar ',' :: s) after := by
  have hclose : ¬ Byte.ofChar ',' = bracket.close := by cases bracket <;> decide
  have hcontent : ¬ Expecting.separator = .content := by decide
  intro fuel hfuel
  cases fuel with
  | zero => simp [slack] at hfuel
  | succ fuel =>
    have hvalue := h fuel (by simp only [List.length_cons, slack] at hfuel ⊢; omega)
    simp only [passFrom, bind_apply, peekToken_cons (b := Byte.ofChar ',') (by decide),
      if_neg hclose, if_neg hcontent, if_true, skip, List.tail_cons, hkey, hvalue]

theorem word {b : UInt8} {t : List UInt8} (hb : b ∈ ['n', 't', 'f'].map Byte.ofChar)
    (hleaf : passLeaf b (b :: (t ++ rest)) = .ok ((), rest))
    (h : Passes .separator stack rest after) : Passes .value stack (b :: t ++ rest) after := by
  obtain ⟨hblank, hlist, hobject⟩ : Byte.isBlank b = false ∧ b ≠ Byte.ofChar '[' ∧
      b ≠ Byte.ofChar '\x7b' := by
    simp only [List.map_cons, List.map_nil, List.mem_cons, List.not_mem_nil, or_false] at hb
    rcases hb with rfl | rfl | rfl <;> decide
  exact .leaf hblank hlist hobject hleaf (by simp) h

theorem literal (t : String) (h : Passes .separator stack rest after) :
    Passes .value stack (utf8 (Json.renderString t) ++ rest) after := by
  rw [utf8_renderString]
  refine .leaf (by decide) (by decide) (by decide) ?_ (by simp) h
  rw [passLeaf, if_pos rfl]
  exact passString_literal t rest

theorem numeral {t : List UInt8} (ht : Numeral t) (hrest : Ends rest)
    (h : Passes .separator stack rest after) : Passes .value stack (t ++ rest) after := by
  obtain ⟨b, tail, rfl, hb⟩ := ht.head
  have hleaf := passLeaf_numeral ht hrest
  rcases hb with rfl | hdigit
  · exact .leaf (by decide) (by decide) (by decide) hleaf (by simp) h
  · exact .leaf (begins_of_isDigit hdigit).not_blank (ne_of_isDigit hdigit (by decide))
      (ne_of_isDigit hdigit (by decide)) hleaf (by simp) h

end Passes

/-- The key and colon in front of a printed member's value. -/
theorem passKey_object (k : String) (s : List UInt8) :
    passKey .object (Byte.ofChar '"' :: (literalTail k ++ Byte.ofChar ':' :: s)) = .ok ((), s) := by
  simp only [passKey, bind_apply, peekToken_cons (b := Byte.ofChar '"') (by decide), ne_eq,
    not_true, if_false, skip, List.tail_cons, passString_literal, colon_cons]

/-! ## Values -/

mutual

/-- A printed value is passed over inside any open brackets. -/
theorem passes_render : ∀ (v : Json) (stack : List Bracket) (rest after : List UInt8), Ends rest →
    Passes .separator stack rest after → Passes .value stack (utf8 v.render ++ rest) after
  | .null, _, _, _, _, h => h.word (by decide) rfl
  | .bool true, _, _, _, _, h => h.word (by decide) rfl
  | .bool false, _, _, _, _, h => h.word (by decide) rfl
  | .int n, _, _, _, hrest, h => by
    have hbytes : utf8 (Json.int n).render = wholeBytes n := utf8_toString_int n
    exact hbytes ▸ h.numeral (numeral_int n) hrest
  | .float x, _, _, _, hrest, h => h.numeral (numeral_text x) hrest
  | .str t, _, _, _, _, h => h.literal t
  | .arr items, stack, rest, after, _, h => by
    rw [utf8_arr, List.cons_append, List.append_assoc]
    exact (passes_items items true stack rest after h).openList
  | .obj members, stack, rest, after, _, h => by
    rw [utf8_obj, List.cons_append, List.append_assoc]
    exact (passes_members members true stack rest after h).openObject

/-- Printed elements are passed over with the bracket behind them. -/
theorem passes_items : ∀ (items : List Json) (first : Bool) (stack : List Bracket)
    (rest after : List UInt8), Passes .separator stack rest after →
      Passes (if first then .content else .separator) (.list :: stack)
        (itemBytes first items ++ Byte.ofChar ']' :: rest) after
  | [], first, stack, rest, after, h => by
    have hbytes : itemBytes first [] = [] := by cases first <;> rfl
    rw [hbytes, List.nil_append]
    exact .close .list (by cases first <;> decide) h
  | v :: items, first, stack, rest, after, h => by
    have hvalue := passes_render v (.list :: stack) _ after (ends_items items rest)
      (passes_items items false stack rest after h)
    cases first with
    | true =>
      obtain ⟨b, tail, hv, hb⟩ := begins_render v
      simp only [itemBytes, List.append_assoc, hv, List.cons_append] at hvalue ⊢
      exact .first hb.not_blank hb.not_close rfl (Nat.le_refl _) hvalue
    | false =>
      simp only [itemBytes, List.append_assoc, List.cons_append]
      exact hvalue.next rfl (Nat.le_refl _)

/-- Printed members are passed over with the brace behind them. -/
theorem passes_members : ∀ (members : List (String × Json)) (first : Bool) (stack : List Bracket)
    (rest after : List UInt8), Passes .separator stack rest after →
      Passes (if first then .content else .separator) (.object :: stack)
        (memberBytes first members ++ Byte.ofChar '\x7d' :: rest) after
  | [], first, stack, rest, after, h => by
    have hbytes : memberBytes first [] = [] := by cases first <;> rfl
    rw [hbytes, List.nil_append]
    exact .close .object (by cases first <;> decide) h
  | (k, v) :: members, first, stack, rest, after, h => by
    have hvalue := passes_render v (.object :: stack) _ after (ends_members members rest)
      (passes_members members false stack rest after h)
    have hlength : ∀ t : List UInt8, t.length ≤ (literalTail k ++ Byte.ofChar ':' :: t).length + 1 := by
      intro t
      simp only [List.length_append, List.length_cons]
      omega
    cases first with
    | true =>
      simp only [memberBytes, List.append_assoc, List.cons_append]
      exact .first (by decide) (by decide) (passKey_object k _) (hlength _) hvalue
    | false =>
      simp only [memberBytes, List.append_assoc, List.cons_append]
      exact hvalue.next (passKey_object k _) (hlength _)

end

/-- A printed value is passed over, and what stands behind it is left. -/
theorem passValue_render (v : Json) (hrest : Ends rest) :
    passValue (utf8 v.render ++ rest) = .ok ((), rest) := by
  have hpass := passes_render v [] rest rest hrest (.done rest)
  simp only [passValue, bind_apply, get_apply]
  exact hpass _ (Nat.le_succ _)

end Reader

end WorkQueue
