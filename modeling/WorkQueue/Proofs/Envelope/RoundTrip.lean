import WorkQueue.Envelope
import WorkQueue.Proofs.Json.Readings
import WorkQueue.Proofs.Json.Records

/-!
# Envelopes read back

The text of an envelope is that of an object of its fields, so it is read field by field. An object
takes one bracket of its own: a payload may nest one bracket less than a text, and one that nests
deeper is refused for it.

## Main definitions

* `Envelope.Plain`: what an envelope without doubles satisfies
* `Envelope.members`: the fields that are written
* `Envelope.Readable`: what an envelope that was read satisfies

## Main statements

* `Envelope.decode_encode`: an envelope is read as itself exactly if its payload is not too deep
* `Envelope.decode_encode_of_decode`, `Envelope.decode_encode_nextAttempt`: what was read can be
  written and read again, and so can its next attempt
-/

namespace WorkQueue

namespace Envelope

open Reader

/-- What every envelope satisfies that has no doubles in its payload. -/
structure Plain (e : Envelope) : Prop where
  normal : e.payload.Normal
  float_free : e.payload.floatFree = true
  /-- The counter is a 32-bit word. -/
  count_le : ∀ n ∈ e.executeCount, n ≤ countLimit

/-- The counter as it is written: not at all if there is none. -/
def countMembers : Option Nat → List (String × Json)
  | some n => [("executeCount", .int n)]
  | none => []

/-- The fields that are written. -/
def members (e : Envelope) : List (String × Json) :=
  ("type", .str e.taskType) :: ("payload", e.payload) :: countMembers e.executeCount

variable {e : Envelope}

/-- The text of an envelope is that of an object of its fields. -/
theorem render_eq (e : Envelope) : e.render = (Json.obj e.members).render := by
  obtain ⟨taskType, payload, count⟩ := e
  have htype : "\x7b\"type\":" = "\x7b" ++ (Json.renderString "type" ++ ":") := rfl
  have hpayload : ",\"payload\":" = "," ++ (Json.renderString "payload" ++ ":") := rfl
  have hcount : ",\"executeCount\":" = "," ++ (Json.renderString "executeCount" ++ ":") := rfl
  cases count with
  | none =>
    simp only [render, members, countMembers, Json.render, Json.renderMembers, htype, hpayload,
      String.append_assoc, String.empty_append]
  | some n =>
    simp only [render, members, countMembers, Json.render, Json.renderMembers, htype, hpayload, hcount,
      String.append_assoc]
    rfl

theorem bytes_encode (e : Envelope) : e.encode.data.toList =
    Byte.ofChar '\x7b' :: (memberBytes true e.members ++ [Byte.ofChar '\x7d']) := by
  have hbytes : e.encode.data.toList = utf8 e.render := rfl
  rw [hbytes, render_eq, utf8_obj]

/-! ## Fields -/

variable {depth : Nat} {rest : List UInt8}

/-- A counter that fits its word is read as itself. -/
theorem read_count {n : Nat} (hn : n ≤ countLimit) (h : Ends rest) (depth : Nat) :
    Shape.word32.optional.read depth (utf8 (Json.int n).render ++ rest) = .ok (some n, rest) := by
  have hread : Shape.word32.read depth (utf8 (Json.int n).render ++ rest) = .ok (n, rest) :=
    Shape.read_unsigned "u32" hn (by decide) h depth
  obtain ⟨b, tail, hb, hbegins⟩ := wholeBytes_head n
  have hbytes : utf8 (Json.int n).render = b :: tail := (utf8_toString_int n).trans hb
  have hblank : Byte.isBlank b = false := by
    rcases hbegins with rfl | hdigit
    · decide
    · exact (begins_of_isDigit hdigit).not_blank
  have hnull : b ≠ Byte.ofChar 'n' := by
    rcases hbegins with rfl | hdigit
    · decide
    · exact ne_of_isDigit hdigit (by decide)
  rw [hbytes, List.cons_append] at hread ⊢
  exact Shape.read_optional hblank hnull hread

/-- The counter and the closing brace behind it. -/
theorem read_countMembers (taskType : String) (payload : Json) {fuel : Nat} {count : Option Nat}
    (hfuel : 1 < fuel) (hcount : ∀ n ∈ count, n ≤ countLimit) :
    record.readMembers depth fuel false ["payload", "type"] ⟨taskType, payload, none⟩
        (memberBytes false (countMembers count) ++ [Byte.ofChar '\x7d']) =
      .ok (⟨taskType, payload, count⟩, [Byte.ofChar '\x7d']) := by
  obtain ⟨fuel, rfl⟩ : ∃ n, fuel = n + 2 := ⟨fuel - 2, by omega⟩
  cases count with
  | none => exact RecordShape.readMembers_nil false rfl
  | some n =>
    have hfield : record.fields.find? (·.name == "executeCount") =
      some (Field.of "executeCount" Shape.word32.optional fun v e => { e with executeCount := v }) := rfl
    have hread := read_count (hcount n rfl) (ends_members [] []) depth
    rw [countMembers, RecordShape.readMembers_cons false hfield rfl
      (Shape.read_map _ hread)]
    exact RecordShape.readMembers_nil false rfl

/-- The members of an encoded envelope, the payload as far as it is not too deep. -/
theorem readMembers_encode (h : e.Plain) {fuel : Nat} (hfuel : 3 < fuel) :
    record.readMembers depth fuel true [] record.blank
        (memberBytes true e.members ++ [Byte.ofChar '\x7d']) =
      bounded (e.payload.nesting ≤ depth) e [Byte.ofChar '\x7d'] := by
  obtain ⟨taskType, payload, count⟩ := e
  obtain ⟨fuel, rfl⟩ : ∃ n, fuel = n + 2 := ⟨fuel - 2, by omega⟩
  have htype : record.fields.find? (·.name == "type") =
    some (Field.of "type" Shape.text fun v e => { e with taskType := v }).needed := rfl
  have hpayload : record.fields.find? (·.name == "payload") =
    some (Field.of "payload" Shape.any fun v e => { e with payload := v }) := rfl
  have hvalue := value_render payload h.normal h.float_free depth _ (ends_members (countMembers count) [])
  rw [members, RecordShape.readMembers_cons true htype rfl (Shape.read_map _ (Shape.read_text taskType depth))]
  by_cases hdeep : payload.nesting ≤ depth
  · rw [bounded, if_pos hdeep] at hvalue ⊢
    rw [RecordShape.readMembers_cons false hpayload rfl (Shape.read_map _ hvalue)]
    exact read_countMembers taskType payload (by omega) h.count_le
  · rw [bounded, if_neg hdeep] at hvalue ⊢
    exact RecordShape.readMembers_error false hpayload rfl (Shape.read_map_error _ hvalue)

/-- An encoded envelope is read as itself exactly if its payload is not too deep. -/
theorem decode_encode (h : e.Plain) : decode e.encode =
    if e.payload.nesting ≤ 126 then .ok e else .error (.malformed .tooDeep) := by
  have hlong : 3 < (memberBytes true e.members ++ [Byte.ofChar '\x7d']).length := by
    have hname : (literalTail "type").length = 5 := by decide
    simp only [members, memberBytes, List.length_append, List.length_cons, hname]
    omega
  have hparse : record.parse e.encode =
      if e.payload.nesting ≤ 126 then .ok e else .error .tooDeep := by
    have hdepth : 126 + 1 = nestingLimit := rfl
    refine RecordShape.parse_object hdepth (bytes_encode e) ?_
    rw [readMembers_encode h hlong, bounded]
    split <;> rfl
  rw [decode, hparse]
  by_cases hdeep : e.payload.nesting ≤ 126
  · simp only [if_pos hdeep]
  · simp only [if_neg hdeep]

theorem decode_encode_eq_ok_iff (h : e.Plain) :
    decode e.encode = .ok e ↔ e.payload.nesting ≤ 126 := by
  rw [decode_encode h]
  split
  case isTrue hle => exact iff_of_true rfl hle
  case isFalse hdeep => exact iff_of_false (fun heq => by cases heq) hdeep

/-! ## What is read -/

/-- What an envelope that was read satisfies, doubles or not. -/
def Readable (e : Envelope) : Prop :=
  e.payload.Tidy 126 ∧ ∀ n ∈ e.executeCount, n ≤ countLimit

/-- A counter that is read fits its word. -/
theorem gives_count (depth : Nat) : Gives (Shape.word32.optional.read depth)
    fun count => ∀ n ∈ count, n ≤ countLimit := by
  have hcheck : ∀ (v : Json) (n : Int), Shape.wholeBetween.check 0 maxWord32 "u32" v = .ok n →
      n ≤ maxWord32 := by
    intro v n h
    unfold Shape.wholeBetween.check at h
    split at h
    · split at h
      case isTrue hinside => exact Except.ok.inj h ▸ hinside.2
      case isFalse => cases h
    · cases h
  have hwhole : Gives ((Shape.wholeBetween 0 maxWord32 "u32").read depth) (· ≤ (maxWord32 : Int)) := by
    refine .after fun b => .ite (.after fun v => ?_) (RecordShape.gives_mismatch b _)
    split
    case h_1 n hn => exact .pure (hcheck v n hn)
    case h_2 => exact .throw _
  have hword : Gives (Shape.word32.read depth) (· ≤ countLimit) :=
    hwhole.bind fun n hn => .pure (Int.toNat_le.mpr hn)
  refine .after fun b => .ite (.after fun _ => .pure (by simp)) (hword.bind fun n hn => .pure ?_)
  simpa using hn

/-- Every field keeps the record readable. -/
theorem keeps_fields : ∀ field ∈ record.fields, RecordShape.Keeps 126 Readable field := by
  intro field hfield
  simp only [record, List.mem_cons, List.not_mem_nil, or_false] at hfield
  rcases hfield with rfl | rfl | rfl
  · exact .after fun v => .pure fun e he => he
  · exact (gives_value 126).bind fun v hv => .pure fun e he => ⟨hv, he.2⟩
  · exact (gives_count 126).bind fun v hv => .pure fun e he => ⟨he.1, hv⟩

/-- What is read is in order, whatever the text was. -/
theorem readable_of_decode {bytes : ByteArray} (h : decode bytes = .ok e) : e.Readable := by
  have hblank : record.blank.Readable := ⟨⟨trivial, Nat.zero_le _⟩, by simp [record]⟩
  have hgives : Gives (record.read nestingLimit) Readable := RecordShape.gives_read hblank keeps_fields
  unfold decode at h
  split at h
  case h_1 e' hparse => exact Except.ok.inj h ▸ hgives.parse hparse
  case h_2 => cases h

theorem Readable.attempts_le (h : e.Readable) : e.attempts ≤ countLimit := by
  unfold attempts
  cases hcount : e.executeCount with
  | none => exact Nat.zero_le _
  | some n => exact h.2 n hcount

/-- What is read and has no doubles can be written and read again. -/
theorem Readable.plain (h : e.Readable) (hfree : e.payload.floatFree = true) : e.Plain :=
  ⟨h.1.1, hfree, h.2⟩

/-- The next attempt's counter is a word again. -/
theorem Plain.nextAttempt (h : e.Plain) : e.nextAttempt.Plain where
  normal := h.normal
  float_free := h.float_free
  count_le n hn := by
    obtain rfl := Option.some.inj hn
    exact Nat.min_le_right _ _

/-- What was read is read again from its encoding. -/
theorem decode_encode_of_decode {bytes : ByteArray} (h : decode bytes = .ok e)
    (hfree : e.payload.floatFree = true) : decode e.encode = .ok e := by
  have hreadable := readable_of_decode h
  exact (decode_encode_eq_ok_iff (hreadable.plain hfree)).mpr hreadable.1.2

/-- So is its next attempt. -/
theorem decode_encode_nextAttempt {bytes : ByteArray} (h : decode bytes = .ok e)
    (hfree : e.payload.floatFree = true) : decode e.nextAttempt.encode = .ok e.nextAttempt := by
  have hreadable := readable_of_decode h
  exact (decode_encode_eq_ok_iff (hreadable.plain hfree).nextAttempt).mpr hreadable.1.2

end Envelope

end WorkQueue
