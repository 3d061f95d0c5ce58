import WorkQueue.Json.Printer
import WorkQueue.Json.Reader

/-!
# The bytes of a text

A reader works on bytes, a printer makes texts. What a reader does with printed text is said of the
bytes of the text, with whatever follows behind them: a step of a reader takes what the printer has
put there and leaves the rest.

## Main definitions

* `utf8`: the bytes of a text

## Main statements

* `Reader.bind_apply`: readers one after the other
* `fromUTF8?_utf8`: a text is what its bytes stand for
-/

namespace WorkQueue

/-- The bytes of a text. -/
def utf8 (s : String) : List UInt8 := s.toUTF8.data.toList

@[simp] theorem utf8_append (s t : String) : utf8 (s ++ t) = utf8 s ++ utf8 t := by
  simp only [utf8, String.toUTF8_eq_toByteArray, String.toByteArray_append, ByteArray.data_append,
    Array.toList_append]

theorem utf8_ofList (l : List Char) : utf8 (String.ofList l) = l.flatMap String.utf8EncodeChar := by
  simp only [utf8, String.toUTF8_eq_toByteArray, String.toByteArray_ofList, List.utf8Encode,
    List.toList_data_toByteArray]

theorem utf8_eq_flatMap (s : String) : utf8 s = s.toList.flatMap String.utf8EncodeChar := by
  rw [← utf8_ofList, String.ofList_toList]

@[simp] theorem utf8_toString (c : Char) : utf8 c.toString = String.utf8EncodeChar c := by
  have hsingle : c.toString = String.ofList [c] := rfl
  rw [hsingle, utf8_ofList, List.flatMap_cons, List.flatMap_nil, List.append_nil]

theorem utf8_join (l : List String) : utf8 (String.join l) = l.flatMap utf8 := by
  induction l with
  | nil => rfl
  | cons s rest ih => rw [String.join_cons, utf8_append, ih, List.flatMap_cons]

/-- A text is what its bytes stand for. -/
theorem fromUTF8?_utf8 (s : String) : String.fromUTF8? ⟨(utf8 s).toArray⟩ = some s := by
  have hbytes : (⟨(utf8 s).toArray⟩ : ByteArray) = s.toByteArray := by
    simp only [utf8, String.toUTF8_eq_toByteArray, Array.toArray_toList]
  rw [hbytes]
  exact dif_pos s.isValidUTF8

/-- Texts with the same bytes are the same. -/
theorem utf8_injective {s t : String} (h : utf8 s = utf8 t) : s = t := by
  have hs := fromUTF8?_utf8 s
  rw [h, fromUTF8?_utf8 t] at hs
  exact (Option.some.inj hs).symm

/-- An ASCII character is its own byte. -/
theorem utf8EncodeChar_of_le {c : Char} (h : c.toNat ≤ 0x7f) :
    String.utf8EncodeChar c = [Byte.ofChar c] := by
  have hle : c.val.toNat ≤ 127 := h
  unfold String.utf8EncodeChar
  simp only [hle, if_true]
  rfl

namespace Reader

variable {α β : Type}

/-- Readers one after the other: the second one takes what the first one has left. -/
theorem bind_apply (m : Reader α) (f : α → Reader β) (s : List UInt8) :
    (m >>= f) s = match m s with
      | .ok (a, rest) => f a rest
      | .error e => .error e := by
  show (m s >>= fun (a, rest) => f a rest) = _
  cases m s <;> rfl

theorem pure_apply (a : α) (s : List UInt8) : (pure a : Reader α) s = .ok (a, s) := rfl

theorem get_apply (s : List UInt8) : (get : Reader (List UInt8)) s = .ok (s, s) := rfl

end Reader

end WorkQueue
