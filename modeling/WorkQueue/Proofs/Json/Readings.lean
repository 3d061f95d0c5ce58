import WorkQueue.Json.Shape
import WorkQueue.Proofs.Json.Text

/-!
# What can be read

Whatever text a reader is given, what it makes of it is in order: whole numbers fit a word, the keys
of an object ascend, and a value nests no deeper than it was allowed to. A record that is read has
every property that its blank has and its fields keep.

## Main definitions

* `Reader.Gives`: all that a reader gives has a property
* `Json.Tidy`: normal and not too deep

## Main statements

* `Reader.gives_value`: every value read is tidy
* `RecordShape.gives_read`: a record read has what its blank has and its fields keep
-/

namespace WorkQueue

namespace Json

/-- A normal value around whose innermost part there are at most `depth` brackets. -/
def Tidy (depth : Nat) (v : Json) : Prop := v.Normal ∧ v.nesting ≤ depth

variable {depth : Nat}

/-! ## Elements and members -/

theorem normalItems_iff {items : List Json} : NormalItems items ↔ ∀ v ∈ items, v.Normal := by
  induction items with
  | nil => simp [NormalItems]
  | cons v rest ih => simp [NormalItems, ih]

theorem normalMembers_iff {members : List (String × Json)} :
    NormalMembers members ↔ ∀ m ∈ members, m.2.Normal := by
  induction members with
  | nil => simp [NormalMembers]
  | cons m rest ih =>
    obtain ⟨k, v⟩ := m
    simp [NormalMembers, ih]

theorem nestingItems_le_iff {items : List Json} :
    nestingItems items ≤ depth ↔ ∀ v ∈ items, v.nesting ≤ depth := by
  induction items with
  | nil => simp [nestingItems]
  | cons v rest ih =>
    rw [nestingItems, Nat.max_le, ih, List.forall_mem_cons]

theorem nestingMembers_le_iff {members : List (String × Json)} :
    nestingMembers members ≤ depth ↔ ∀ m ∈ members, m.2.nesting ≤ depth := by
  induction members with
  | nil => simp [nestingMembers]
  | cons m rest ih =>
    obtain ⟨k, v⟩ := m
    rw [nestingMembers, Nat.max_le, ih, List.forall_mem_cons]

theorem tidy_arr {items : List Json} (h : ∀ v ∈ items, Tidy depth v) :
    Tidy (depth + 1) (.arr items) := by
  refine ⟨normalItems_iff.mpr fun v hv => (h v hv).1, ?_⟩
  rw [nesting, Nat.add_le_add_iff_right]
  exact nestingItems_le_iff.mpr fun v hv => (h v hv).2

theorem tidy_obj {members : List (String × Json)} (hsorted : members.Pairwise (·.1 < ·.1))
    (h : ∀ m ∈ members, Tidy depth m.2) : Tidy (depth + 1) (.obj members) := by
  refine ⟨⟨hsorted, normalMembers_iff.mpr fun m hm => (h m hm).1⟩, ?_⟩
  rw [nesting, Nat.add_le_add_iff_right]
  exact nestingMembers_le_iff.mpr fun m hm => (h m hm).2

/-! ## Members set one after the other -/

theorem mem_insertMember {key : String} {value : Json} {members : List (String × Json)}
    {m : String × Json} (h : m ∈ insertMember key value members) : m = (key, value) ∨ m ∈ members := by
  induction members with
  | nil => exact .inl (List.mem_singleton.mp h)
  | cons first rest ih =>
    obtain ⟨k, v⟩ := first
    rw [insertMember] at h
    split at h
    · exact List.mem_cons.mp h
    split at h
    · rcases List.mem_cons.mp h with rfl | hrest
      · exact .inl rfl
      · exact .inr (List.mem_cons_of_mem _ hrest)
    · rcases List.mem_cons.mp h with rfl | hrest
      · exact .inr List.mem_cons_self
      · exact (ih hrest).imp_right (List.mem_cons_of_mem _)

/-- Setting a key leaves the keys in order. -/
theorem sorted_insertMember {key : String} {value : Json} {members : List (String × Json)}
    (h : members.Pairwise (·.1 < ·.1)) : (insertMember key value members).Pairwise (·.1 < ·.1) := by
  induction members with
  | nil => exact List.pairwise_singleton _ _
  | cons first rest ih =>
    obtain ⟨k, v⟩ := first
    obtain ⟨hfirst, hrest⟩ := List.pairwise_cons.mp h
    rw [insertMember]
    split
    case isTrue hlt =>
      refine List.pairwise_cons.mpr ⟨fun m hm => ?_, h⟩
      rcases List.mem_cons.mp hm with rfl | hm
      · exact hlt
      · exact String.lt_trans hlt (hfirst m hm)
    case isFalse hlt =>
      split
      case isTrue heq =>
        refine List.pairwise_cons.mpr ⟨fun m hm => ?_, hrest⟩
        show key < m.1
        rw [heq]
        exact hfirst m hm
      case isFalse hne =>
        refine List.pairwise_cons.mpr ⟨fun m hm => ?_, ih hrest⟩
        rcases mem_insertMember hm with rfl | hm
        · -- `key` is neither below `k` nor `k` itself
          exact String.not_le.mp fun hle => hne (String.le_antisymm hle (String.not_lt.mp hlt))
        · exact hfirst m hm

/-- An object made of tidy members is tidy, whatever their order. -/
theorem tidy_ofMembers {members : List (String × Json)} (h : ∀ m ∈ members, Tidy depth m.2) :
    Tidy (depth + 1) (ofMembers members) := by
  have hfold : ∀ (rest before : List (String × Json)), (∀ m ∈ rest, Tidy depth m.2) →
      before.Pairwise (·.1 < ·.1) → (∀ m ∈ before, Tidy depth m.2) →
        Tidy (depth + 1) (.obj (rest.foldl (fun acc m => insertMember m.1 m.2 acc) before)) := by
    intro rest
    induction rest with
    | nil =>
      intro before _ hsorted hbefore
      exact tidy_obj hsorted hbefore
    | cons first rest ih =>
      obtain ⟨k, v⟩ := first
      intro before hrest hsorted hbefore
      refine ih _ (fun m hm => hrest m (List.mem_cons_of_mem _ hm)) (sorted_insertMember hsorted) ?_
      intro m hm
      rcases mem_insertMember hm with rfl | hm
      · exact hrest (k, v) List.mem_cons_self
      · exact hbefore m hm
  exact hfold members [] h .nil (by simp)

end Json

namespace Reader

variable {α β : Type} {P : α → Prop} {Q : β → Prop}

/-- All that the reader gives has the property. -/
def Gives (m : Reader α) (P : α → Prop) : Prop := ∀ s a rest, m s = .ok (a, rest) → P a

namespace Gives

theorem pure {a : α} (h : P a) : Gives (Pure.pure a) P := by
  intro s a' rest hread
  cases hread
  exact h

theorem throw (e : JsonError) : Gives (throw e : Reader α) P := by
  intro s a rest hread
  cases hread

theorem bind {m : Reader α} {f : α → Reader β} (hm : Gives m P) (hf : ∀ a, P a → Gives (f a) Q) :
    Gives (m >>= f) Q := by
  intro s b rest hread
  rw [bind_apply] at hread
  cases hfirst : m s with
  | error e =>
    rw [hfirst] at hread
    cases hread
  | ok first =>
    obtain ⟨a, t⟩ := first
    rw [hfirst] at hread
    exact hf a (hm s a t hfirst) t b rest hread

theorem anything (m : Reader α) : Gives m fun _ => True := fun _ _ _ _ => trivial

/-- Of what was read first nothing has to be known. -/
theorem after {m : Reader α} {f : α → Reader β} (hf : ∀ a, Gives (f a) Q) : Gives (m >>= f) Q :=
  (anything m).bind fun a _ => hf a

theorem mono {P' : α → Prop} {m : Reader α} (h : Gives m P) (himp : ∀ a, P a → P' a) :
    Gives m P' := fun s a rest hread => himp a (h s a rest hread)

theorem ite {c : Prop} [Decidable c] {m n : Reader α} (hm : Gives m P) (hn : Gives n P) :
    Gives (if c then m else n) P := by
  split
  · exact hm
  · exact hn

/-- A step that may be left out says nothing about what is read. -/
theorem optionally {c : Prop} [Decidable c] {m : Reader β} {n : Reader α} (h : Gives n P) :
    Gives (if c then m >>= fun _ => n else n) P :=
  .ite (.after fun _ => h) h

theorem refused {e : JsonError} {f : β → Reader α} :
    Gives (MonadExcept.throw e >>= f) P :=
  (throw (P := fun _ => False) e).bind fun _ hfalse => hfalse.elim

/-- A check that refuses says nothing about what is read. -/
theorem guarded {c : Prop} [Decidable c] {e : JsonError} {f : β → Reader α} {n : Reader α}
    (h : Gives n P) : Gives (if c then MonadExcept.throw e >>= f else n) P :=
  .ite .refused h

end Gives

/-! ## Numbers -/

theorem absorb_le {significand : Nat} (h : significand ≤ maxWord64) (ds : List UInt8) :
    (absorb significand ds).1 ≤ maxWord64 := by
  induction ds generalizing significand with
  | nil => exact h
  | cons b rest ih =>
    unfold absorb
    dsimp only
    split
    case isTrue hle => exact ih hle
    case isFalse => exact h

theorem gives_scaled (negative : Bool) (significand : Nat) (exponent : Int) :
    Gives (scaled negative significand exponent) (Json.Tidy 0) := by
  unfold scaled
  split
  · exact .pure ⟨trivial, Nat.le_refl 0⟩
  · exact .throw _

theorem gives_exponentPart (negative : Bool) (significand : Nat) (exponent : Int) :
    Gives (exponentPart negative significand exponent) (Json.Tidy 0) := by
  unfold exponentPart
  refine .after fun _ => .after fun sign => .optionally (.after fun b => ?_)
  cases b with
  | none => exact .throw _
  | some b =>
    refine .guarded (.after fun ds => .ite (gives_scaled _ _ _) (.ite (.throw _) ?_))
    exact .pure ⟨trivial, Nat.le_refl 0⟩

theorem gives_numberTail (negative : Bool) (significand dropped : Nat) {whole : Reader Json}
    (h : Gives whole (Json.Tidy 0)) :
    Gives (numberTail negative significand dropped whole) (Json.Tidy 0) := by
  unfold numberTail
  refine .after fun mark => .ite (.after fun _ => .after fun fraction => ?_) (.ite ?_ h)
  · refine .ite (.after fun b => ?_) (.after fun mark => .ite ?_ ?_)
    · cases b with
      | none => exact .refused
      | some b => exact .refused
    · exact gives_exponentPart _ _ _
    · exact gives_scaled _ _ _
  · exact gives_exponentPart _ _ _

/-- A number without a fraction or an exponent fits a word or is a double. -/
theorem gives_wholeNumber (negative : Bool) {significand : Nat} (h : significand ≤ maxWord64)
    (dropped : Nat) : Gives (wholeNumber negative significand dropped) (Json.Tidy 0) := by
  unfold wholeNumber
  split
  · split
    · refine .pure ⟨?_, Nat.le_refl 0⟩
      simp only [Json.Normal, Json.fitsWord, Bool.and_eq_true, decide_eq_true_eq, minSigned64]
      omega
    · dsimp only
      split
      case isTrue => exact gives_scaled _ _ _
      case isFalse hinside =>
        refine .pure ⟨?_, Nat.le_refl 0⟩
        simp only [Json.Normal, Json.fitsWord, Bool.and_eq_true, decide_eq_true_eq]
        omega
  · exact gives_scaled _ _ _

theorem gives_unsignedNumber (negative : Bool) : Gives (unsignedNumber negative) (Json.Tidy 0) := by
  unfold unsignedNumber
  refine .after fun b => ?_
  cases b with
  | none => exact .throw _
  | some b =>
    refine .guarded (.after fun whole => .guarded ?_)
    exact gives_numberTail _ _ _ (gives_wholeNumber negative (absorb_le (Nat.zero_le _) whole) _)

theorem gives_number (b : UInt8) : Gives (number b) (Json.Tidy 0) :=
  .ite (.after fun _ => gives_unsignedNumber true) (gives_unsignedNumber false)

theorem gives_leaf (b : UInt8) : Gives (leaf b) (Json.Tidy 0) := by
  have hplain : ∀ v : Json, v.Normal → v.nesting = 0 → Gives (Pure.pure v) (Json.Tidy 0) :=
    fun v hnormal hnesting => .pure ⟨hnormal, Nat.le_of_eq hnesting⟩
  unfold leaf
  refine .ite (.after fun _ => .after fun t => hplain _ trivial rfl) (.ite ?_ (.ite ?_ (.ite ?_ ?_)))
  · exact .after fun _ => .after fun _ => hplain _ trivial rfl
  · exact .after fun _ => .after fun _ => hplain _ trivial rfl
  · exact .after fun _ => .after fun _ => hplain _ trivial rfl
  · exact .ite (gives_number b) (.throw _)

/-! ## Lists and objects -/

theorem gives_items {item : Reader α} (h : Gives item P) (fuel : Nat) (first : Bool) :
    Gives (items item fuel first) fun xs => ∀ x ∈ xs, P x := by
  induction fuel generalizing first with
  | zero => exact .throw _
  | succ fuel ih =>
    refine .after fun more => .ite (h.bind fun x hx => (ih false).bind fun xs hxs => .pure ?_)
      (.pure (by simp))
    exact List.forall_mem_cons.mpr ⟨hx, hxs⟩

theorem gives_members {item : Reader α} (h : Gives item P) (fuel : Nat) (first : Bool) :
    Gives (members item fuel first) fun ms => ∀ m ∈ ms, P m.2 := by
  induction fuel generalizing first with
  | zero => exact .throw _
  | succ fuel ih =>
    refine .after fun key => ?_
    cases key with
    | none => exact .pure (by simp)
    | some key =>
      refine .after fun _ => h.bind fun x hx => (ih false).bind fun ms hms => .pure ?_
      exact List.forall_mem_cons.mpr ⟨hx, hms⟩

/-- Every value read is normal and nests no deeper than allowed. -/
theorem gives_value (depth : Nat) : Gives (value depth) (Json.Tidy depth) := by
  have hleaf : ∀ b depth, Gives (leaf b) (Json.Tidy depth) := fun b depth =>
    (gives_leaf b).mono fun v hv => ⟨hv.1, Nat.le_trans hv.2 (Nat.zero_le depth)⟩
  induction depth with
  | zero =>
    refine .after fun b => ?_
    cases b with
    | none => exact .throw _
    | some b => exact .ite (.throw _) (hleaf b 0)
  | succ depth ih =>
    refine .after fun b => ?_
    cases b with
    | none => exact .throw _
    | some b =>
      refine .ite ?_ (.ite ?_ (hleaf b _))
      · refine .after fun _ => .after fun s => (gives_items ih _ true).bind fun elements h => ?_
        exact .after fun _ => .pure (Json.tidy_arr h)
      · refine .after fun _ => .after fun s => (gives_members ih _ true).bind fun pairs h => ?_
        exact .after fun _ => .pure (Json.tidy_ofMembers h)

/-! ## Whole texts -/

/-- What is made of a whole text has what its reader gives. -/
theorem Gives.parse {m : Reader α} (h : Gives m P) {bytes : ByteArray} {a : α}
    (hread : m.parse bytes = .ok a) : P a := by
  have hwhole : Gives (m >>= fun x => finish >>= fun _ => Pure.pure x) P :=
    h.bind fun x hx => .after fun _ => .pure hx
  have hrun : (Prod.fst <$> (m >>= fun x => finish >>= fun _ => Pure.pure x) bytes.data.toList) =
    .ok a := hread
  cases hresult : (m >>= fun x => finish >>= fun _ => Pure.pure x : Reader α) bytes.data.toList with
  | error e =>
    rw [hresult] at hrun
    cases hrun
  | ok result =>
    obtain ⟨b, rest⟩ := result
    rw [hresult] at hrun
    exact Except.ok.inj hrun ▸ hwhole _ b rest hresult

end Reader

/-! ## Records -/

namespace RecordShape

variable {α : Type} {I : α → Prop}

open Reader

/-- Whatever value the field is given, its change keeps the property. -/
def Keeps (depth : Nat) (I : α → Prop) (field : Field α) : Prop :=
  Gives (field.change.read depth) fun change => ∀ a, I a → I (change a)

theorem gives_mismatch {P : α → Prop} (b : UInt8) (expected : String) :
    Gives (mismatch b expected : Reader α) P :=
  .ite (.throw _) (.ite (.throw _) (.after fun _ => .throw _))

theorem complete_eq {shape : RecordShape α} {seen : List String} {a a' : α}
    (h : shape.complete seen a = .ok a') : a' = a := by
  unfold complete at h
  split at h
  · cases h
  · exact (Except.ok.inj h).symm

theorem gives_readMembers {shape : RecordShape α} {depth : Nat}
    (h : ∀ field ∈ shape.fields, Keeps depth I field) (fuel : Nat) (first : Bool)
    (seen : List String) {a : α} (ha : I a) :
    Gives (shape.readMembers depth fuel first seen a) I := by
  induction fuel generalizing first seen a with
  | zero => exact .throw _
  | succ fuel ih =>
    refine .after fun key => ?_
    cases key with
    | none =>
      dsimp only
      split
      case h_1 a' hcomplete => exact .pure (complete_eq hcomplete ▸ ha)
      case h_2 => exact .throw _
    | some key =>
      dsimp only
      split
      case h_1 => exact .after fun _ => .after fun _ => ih false seen ha
      case h_2 field hfield =>
        have hkeeps := h field (List.mem_of_find?_eq_some hfield)
        refine .guarded (.after fun _ => hkeeps.bind fun change hchange => ?_)
        exact ih false (key :: seen) (hchange a ha)

theorem gives_readElements {shape : RecordShape α} {depth : Nat} {fields : List (Field α)}
    (h : ∀ field ∈ fields, Keeps depth I field) (index : Nat) (first : Bool) {a : α} (ha : I a) :
    Gives (shape.readElements depth fields index first a) I := by
  induction fields generalizing index first a with
  | nil => exact .pure ha
  | cons field rest ih =>
    have hrest : ∀ field ∈ rest, Keeps depth I field := fun f hf => h f (List.mem_cons_of_mem _ hf)
    refine .after fun more => .ite ?_ (.ite (.throw _) (ih hrest _ first ha))
    exact (h field List.mem_cons_self).bind fun change hchange => ih hrest _ false (hchange a ha)

/-- A record read has every property that its blank has and its fields keep. -/
theorem gives_read {shape : RecordShape α} {depth : Nat} (hblank : I shape.blank)
    (h : ∀ field ∈ shape.fields, Keeps depth I field) : Gives (shape.read (depth + 1)) I := by
  refine .after fun b => .ite ?_ (.ite ?_ (gives_mismatch b _))
  · refine .after fun _ => (gives_readElements h 0 true hblank).bind fun a ha => ?_
    exact .after fun _ => .pure ha
  · refine .after fun _ => .after fun s => (gives_readMembers h _ true [] hblank).bind fun a ha => ?_
    exact .after fun _ => .pure ha

end RecordShape

end WorkQueue
