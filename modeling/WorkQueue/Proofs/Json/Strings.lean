import WorkQueue.Proofs.Json.Text

/-!
# String literals read back

A printed string literal is read as the text it was made from. Of every character the reader takes
what the printer has written for it: its own bytes, or an escape. Its fuel is spent byte by byte, so
any amount that is not below the number of bytes will do.

## Main definitions

* `Reader.ReadsString`: how a literal is read up to its closing quote

## Main statements

* `Reader.stringBody_literal`: the literal of a text is read as the text
-/

namespace WorkQueue

namespace Reader

/-- The bytes in front of a closing quote are read as `bytes`, and `after` is what follows. -/
def ReadsString (s bytes after : List UInt8) : Prop :=
  ∀ fuel, s.length ≤ fuel → stringBytes fuel s = .ok (bytes, after)

/-- A byte that stands for itself in a literal. -/
def Plain (b : UInt8) : Prop := b ≠ Byte.ofChar '"' ∧ b ≠ Byte.ofChar '\\' ∧ ¬ b < 0x20

variable {s bytes after : List UInt8}

namespace ReadsString

theorem quote (after : List UInt8) : ReadsString (Byte.ofChar '"' :: after) [] after := by
  intro fuel hfuel
  cases fuel with
  | zero => simp at hfuel
  | succ fuel => rfl

theorem plain {b : UInt8} (hb : Plain b) (h : ReadsString s bytes after) :
    ReadsString (b :: s) (b :: bytes) after := by
  obtain ⟨hquote, hslash, hcontrol⟩ := hb
  intro fuel hfuel
  cases fuel with
  | zero => simp at hfuel
  | succ fuel =>
    have hrest := h fuel (by simpa using hfuel)
    simp only [stringBytes, bind_apply, next?, if_neg hquote, if_neg hslash, if_neg hcontrol, hrest]
    rfl

theorem plains {bs : List UInt8} (hbs : ∀ b ∈ bs, Plain b) (h : ReadsString s bytes after) :
    ReadsString (bs ++ s) (bs ++ bytes) after := by
  induction bs with
  | nil => exact h
  | cons b bs ih =>
    exact plain (hbs b List.mem_cons_self) (ih fun b' hb' => hbs b' (List.mem_cons_of_mem _ hb'))

/-- An escape is read as its character. -/
theorem escaped {c : Char} {t : List UInt8}
    (hescape : escape (t ++ s) = .ok (c, s)) (h : ReadsString s bytes after) :
    ReadsString (Byte.ofChar '\\' :: t ++ s) (String.utf8EncodeChar c ++ bytes) after := by
  intro fuel hfuel
  cases fuel with
  | zero => simp at hfuel
  | succ fuel =>
    have hrest := h fuel (by simp only [List.cons_append, List.length_cons, List.length_append] at hfuel; omega)
    have hslash : ¬ Byte.ofChar '\\' = Byte.ofChar '"' := by decide
    have hbytes : c.toString.toUTF8.data.toList = String.utf8EncodeChar c := utf8_toString c
    simp only [List.cons_append, stringBytes, bind_apply, next?, if_neg hslash, if_true, hescape,
      hrest, hbytes]
    rfl

end ReadsString

/-! ## Characters -/

/-- A `\u` escape of a unit that is no surrogate. -/
theorem escape_unit {t : List UInt8} {n : Nat} (hread : hexUnit t = .ok (n, s)) (hn : n < 0xD800) :
    escape (Byte.ofChar 'u' :: t) = .ok (Char.ofNat n, s) := by
  have hlow : ¬ (0xDC00 ≤ n ∧ n ≤ 0xDFFF) := by omega
  have hhigh : n < 0xD800 ∨ 0xDBFF < n := .inl hn
  have hu : escape (Byte.ofChar 'u' :: t) = unicodeEscape t := rfl
  rw [hu]
  simp only [unicodeEscape, bind_apply, hread, if_neg hlow, if_pos hhigh]
  rfl

/-- A digit to base sixteen is read back. -/
theorem hexValue?_digitChar : ∀ n < 16, Byte.hexValue? (Byte.ofChar n.digitChar) = some n := by
  decide

/-- Controls that have no short escape are written by their number. -/
theorem utf8_escapeChar_control : ∀ n < 32, n ∉ [8, 9, 10, 12, 13] →
    utf8 (Json.escapeChar (Char.ofNat n)) =
      Byte.ofChar '\\' :: ['u', '0', '0', (n / 16).digitChar, (n % 16).digitChar].map Byte.ofChar := by
  decide

/-- Such a number is read back. -/
theorem hexUnit_control {n : Nat} (h : n < 32) (s : List UInt8) :
    hexUnit (['0', '0', (n / 16).digitChar, (n % 16).digitChar].map Byte.ofChar ++ s) =
      .ok (n, s) := by
  have hhigh := hexValue?_digitChar (n / 16) (by omega)
  have hlow := hexValue?_digitChar (n % 16) (by omega)
  have hzero : Byte.hexValue? (Byte.ofChar '0') = some 0 := by decide
  have hn : ((0 * 16 + 0) * 16 + n / 16) * 16 + n % 16 = n := by omega
  simp only [List.map_cons, List.map_nil, List.cons_append, List.nil_append, hexUnit, hzero, hhigh,
    hlow, hn]

theorem escape_control {n : Nat} (h : n < 32) (s : List UInt8) :
    escape (['u', '0', '0', (n / 16).digitChar, (n % 16).digitChar].map Byte.ofChar ++ s) =
      .ok (Char.ofNat n, s) :=
  escape_unit (hexUnit_control h s) (by omega)

/-- All others but the quote and the backslash stand for themselves. -/
theorem escapeChar_plain {c : Char} (hcontrol : 0x20 ≤ c.toNat) (hquote : c ≠ '"')
    (hslash : c ≠ '\\') : Json.escapeChar c = c.toString := by
  have hne : ∀ d : Char, d.toNat < 0x20 → c ≠ d := fun d hd heq => by
    rw [heq] at hcontrol
    omega
  unfold Json.escapeChar
  split
  case h_1 => exact absurd rfl hquote
  case h_2 => exact absurd rfl hslash
  case h_8 => rw [if_neg (by omega), if_neg (by omega)]
  all_goals exact absurd rfl (hne _ (by decide))

/-- Beyond ASCII all bytes of a character are large. -/
theorem le_toNat_of_mem {c : Char} (hc : 0x7f < c.toNat) {b : UInt8}
    (hb : b ∈ String.utf8EncodeChar c) : 0x80 ≤ b.toNat := by
  have hc' : ¬ c.val.toNat ≤ 127 := Nat.not_le.mpr hc
  unfold String.utf8EncodeChar at hb
  dsimp only at hb
  rw [if_neg hc'] at hb
  -- by the number of bytes
  split at hb
  · simp only [List.mem_cons, List.not_mem_nil, or_false] at hb
    rcases hb with rfl | rfl <;> rw [UInt8.toNat_ofNat'] <;> omega
  · split at hb <;> simp only [List.mem_cons, List.not_mem_nil, or_false] at hb
    · rcases hb with rfl | rfl | rfl <;> rw [UInt8.toNat_ofNat'] <;> omega
    · rcases hb with rfl | rfl | rfl | rfl <;> rw [UInt8.toNat_ofNat'] <;> omega

theorem plain_of_toNat {b : UInt8} (hcontrol : 0x20 ≤ b.toNat) (hquote : b.toNat ≠ 0x22)
    (hslash : b.toNat ≠ 0x5c) : Plain b := by
  refine ⟨fun heq => hquote ?_, fun heq => hslash ?_, fun hlt => ?_⟩
  · rw [heq]
    rfl
  · rw [heq]
    rfl
  · have hlt' : b.toNat < 0x20 := UInt8.lt_iff_toNat_lt.mp hlt
    omega

/-- The bytes of a character that stands for itself do so too. -/
theorem plain_of_mem {c : Char} (hcontrol : 0x20 ≤ c.toNat) (hquote : c ≠ '"') (hslash : c ≠ '\\')
    {b : UInt8} (hb : b ∈ String.utf8EncodeChar c) : Plain b := by
  by_cases hascii : c.toNat ≤ 0x7f
  · rw [utf8EncodeChar_of_le hascii] at hb
    obtain rfl := List.mem_singleton.mp hb
    have hbyte : (Byte.ofChar c).toNat = c.toNat := by
      simp only [Byte.ofChar, Nat.toUInt8_eq, UInt8.toNat_ofNat']
      omega
    rw [← hbyte] at hcontrol
    refine plain_of_toNat hcontrol (fun heq => hquote ?_) (fun heq => hslash ?_) <;>
      exact Char.toNat_inj.mp (hbyte ▸ heq)
  · have hlarge := le_toNat_of_mem (Nat.lt_of_not_le hascii) hb
    exact plain_of_toNat (by omega) (by omega) (by omega)

/-- How a character stands in a literal: for itself, as an escape of one letter, or as a control by
its number. -/
inductive Written (c : Char) : List UInt8 → Prop where
  | plain : (∀ b ∈ String.utf8EncodeChar c, Plain b) → Written c (String.utf8EncodeChar c)
  | letter {l : Char} : l ∈ ['"', '\\', 'b', 'f', 'n', 'r', 't'] →
      (∀ s, escape (Byte.ofChar l :: s) = .ok (c, s)) →
      Written c [Byte.ofChar '\\', Byte.ofChar l]
  | control {n : Nat} : n < 32 → c = Char.ofNat n → Written c (Byte.ofChar '\\' ::
      ['u', '0', '0', (n / 16).digitChar, (n % 16).digitChar].map Byte.ofChar)

/-- The printer writes every character in one of these ways. -/
theorem written_escapeChar (c : Char) : Written c (utf8 (Json.escapeChar c)) := by
  by_cases hcontrol : 0x20 ≤ c.toNat
  · by_cases hquote : c = '"'
    · subst hquote
      exact .letter (l := '"') (by simp) fun _ => rfl
    by_cases hslash : c = '\\'
    · subst hslash
      exact .letter (l := '\\') (by simp) fun _ => rfl
    rw [escapeChar_plain hcontrol hquote hslash, utf8_toString]
    exact .plain fun b hb => plain_of_mem hcontrol hquote hslash hb
  -- a control: some have a letter of their own
  have hlt : c.toNat < 32 := Nat.lt_of_not_le hcontrol
  rw [← Char.ofNat_toNat c]
  by_cases hshort : c.toNat ∈ [8, 9, 10, 12, 13]
  · simp only [List.mem_cons, List.not_mem_nil, or_false] at hshort
    rcases hshort with hn | hn | hn | hn | hn <;> rw [hn]
    · exact .letter (l := 'b') (by simp) fun _ => rfl
    · exact .letter (l := 't') (by simp) fun _ => rfl
    · exact .letter (l := 'n') (by simp) fun _ => rfl
    · exact .letter (l := 'f') (by simp) fun _ => rfl
    · exact .letter (l := 'r') (by simp) fun _ => rfl
  · rw [utf8_escapeChar_control c.toNat hlt hshort]
    exact .control hlt rfl

/-- Of a character the reader takes what the printer has written for it. -/
theorem ReadsString.char (c : Char) (h : ReadsString s bytes after) :
    ReadsString (utf8 (Json.escapeChar c) ++ s) (String.utf8EncodeChar c ++ bytes) after := by
  have hwritten := written_escapeChar c
  generalize utf8 (Json.escapeChar c) = written at hwritten ⊢
  cases hwritten with
  | plain hplain => exact h.plains hplain
  | letter _ hescape => exact h.escaped (t := [_]) (hescape s)
  | control hlt hc =>
    subst hc
    exact h.escaped (escape_control hlt s)

/-! ## Literals -/

/-- What is between the quotes of a literal. -/
theorem readsString_chars (l : List Char) (after : List UInt8) :
    ReadsString ((l.map Json.escapeChar).flatMap utf8 ++ Byte.ofChar '"' :: after)
      (l.flatMap String.utf8EncodeChar) after := by
  induction l with
  | nil => exact .quote after
  | cons c rest ih =>
    simp only [List.map_cons, List.flatMap_cons, List.append_assoc]
    exact ih.char c

/-- A literal, its opening quote taken off. -/
def literalTail (t : String) : List UInt8 :=
  (t.toList.map Json.escapeChar).flatMap utf8 ++ [Byte.ofChar '"']

theorem utf8_renderString (t : String) :
    utf8 (Json.renderString t) = Byte.ofChar '"' :: literalTail t := by
  simp only [Json.renderString, utf8_append, utf8_join, literalTail]
  rfl

/-- The literal of a text is read as the text. -/
theorem stringBody_literal (t : String) (after : List UInt8) :
    stringBody (literalTail t ++ after) = .ok (t, after) := by
  have hread := readsString_chars t.toList after (literalTail t ++ after).length (by
    simp [literalTail])
  have hbytes : stringBytes (literalTail t ++ after).length (literalTail t ++ after) =
      .ok (utf8 t, after) := by
    rw [utf8_eq_flatMap, ← hread]
    simp only [literalTail, List.append_assoc, List.cons_append, List.nil_append]
  simp only [stringBody, bind_apply, get_apply, hbytes, fromUTF8?_utf8]
  rfl

end Reader

end WorkQueue
