import WorkQueue.Number.Binary64

/-!
# JSON values

A number is a whole number where it was written as one and fits 64 bits, and a finite double
otherwise. An object keeps one value per key, with its keys in ascending order.

## Main definitions

* `Json`: the values
* `Json.insertMember`: set a key of a sorted member list
* `Json.Normal`: what every value in use satisfies
-/

namespace WorkQueue

/-- A JSON value. -/
inductive Json where
  | null
  | bool (b : Bool)
  | int (n : Int)
  | float (x : Binary64)
  | str (s : String)
  | arr (items : List Json)
  | obj (members : List (String × Json))
  deriving Inhabited

namespace Json

/-! ## §1 Equality -/

mutual

/-- Decide whether two values are the same. -/
def decEq : (a b : Json) → Decidable (a = b)
  | .null, .null => isTrue rfl
  | .bool a, .bool b => decidable_of_iff (a = b) (by simp)
  | .int a, .int b => decidable_of_iff (a = b) (by simp)
  | .float a, .float b => decidable_of_iff (a = b) (by simp)
  | .str a, .str b => decidable_of_iff (a = b) (by simp)
  | .arr a, .arr b => match decEqItems a b with
    | isTrue h => isTrue (by rw [h])
    | isFalse h => isFalse (by simpa using h)
  | .obj a, .obj b => match decEqMembers a b with
    | isTrue h => isTrue (by rw [h])
    | isFalse h => isFalse (by simpa using h)
  | .null, .bool _ | .null, .int _ | .null, .float _ | .null, .str _ | .null, .arr _
  | .null, .obj _ | .bool _, .null | .bool _, .int _ | .bool _, .float _ | .bool _, .str _
  | .bool _, .arr _ | .bool _, .obj _ | .int _, .null | .int _, .bool _ | .int _, .float _
  | .int _, .str _ | .int _, .arr _ | .int _, .obj _ | .float _, .null | .float _, .bool _
  | .float _, .int _ | .float _, .str _ | .float _, .arr _ | .float _, .obj _ | .str _, .null
  | .str _, .bool _ | .str _, .int _ | .str _, .float _ | .str _, .arr _ | .str _, .obj _
  | .arr _, .null | .arr _, .bool _ | .arr _, .int _ | .arr _, .float _ | .arr _, .str _
  | .arr _, .obj _ | .obj _, .null | .obj _, .bool _ | .obj _, .int _ | .obj _, .float _
  | .obj _, .str _ | .obj _, .arr _ => isFalse (by simp)

/-- Decide whether two lists of elements are the same. -/
def decEqItems : (a b : List Json) → Decidable (a = b)
  | [], [] => isTrue rfl
  | [], _ :: _ | _ :: _, [] => isFalse (by simp)
  | x :: xs, y :: ys => match decEq x y, decEqItems xs ys with
    | isTrue h, isTrue t => isTrue (by rw [h, t])
    | isFalse h, _ => isFalse (by simp [h])
    | _, isFalse t => isFalse (by simp [t])

/-- Decide whether two member lists are the same. -/
def decEqMembers : (a b : List (String × Json)) → Decidable (a = b)
  | [], [] => isTrue rfl
  | [], _ :: _ | _ :: _, [] => isFalse (by simp)
  | (k, x) :: xs, (l, y) :: ys =>
    if hk : k = l then
      match decEq x y, decEqMembers xs ys with
      | isTrue h, isTrue t => isTrue (by rw [hk, h, t])
      | isFalse h, _ => isFalse (by simp [h])
      | _, isFalse t => isFalse (by simp [t])
    else isFalse (by simp [hk])

end

instance : DecidableEq Json := decEq

/-! ## §2 Objects -/

/-- Set `key` to `value` in a member list that is sorted by key. -/
def insertMember (key : String) (value : Json) : List (String × Json) → List (String × Json)
  | [] => [(key, value)]
  | (k, v) :: rest =>
    if key < k then (key, value) :: (k, v) :: rest
    else if key = k then (key, value) :: rest
    else (k, v) :: insertMember key value rest

/-- The object with the given members; of two with one key the later stays. -/
def ofMembers (members : List (String × Json)) : Json :=
  .obj (members.foldl (fun acc (k, v) => insertMember k v acc) [])

/-- The value at `key`, if this is an object that has it. -/
def member? (key : String) : Json → Option Json
  | .obj members => members.lookup key
  | _ => none

/-! ## §3 Bounds -/

/-- Whole numbers that stay whole: those of a signed or an unsigned 64-bit word. -/
def fitsWord (n : Int) : Bool := minSigned64 ≤ n && n ≤ maxWord64

mutual

/-- Whole numbers fit a word and the keys of every object ascend strictly. -/
def Normal : Json → Prop
  | .null | .bool _ | .float _ | .str _ => True
  | .int n => fitsWord n = true
  | .arr items => NormalItems items
  | .obj members => members.Pairwise (·.1 < ·.1) ∧ NormalMembers members

/-- Every element is normal. -/
def NormalItems : List Json → Prop
  | [] => True
  | v :: rest => v.Normal ∧ NormalItems rest

/-- Every member's value is normal. -/
def NormalMembers : List (String × Json) → Prop
  | [] => True
  | (_, v) :: rest => v.Normal ∧ NormalMembers rest

end

mutual

/-- How many brackets stand around the innermost value. -/
def nesting : Json → Nat
  | .null | .bool _ | .int _ | .float _ | .str _ => 0
  | .arr items => nestingItems items + 1
  | .obj members => nestingMembers members + 1

/-- The deepest nesting among the elements. -/
def nestingItems : List Json → Nat
  | [] => 0
  | v :: rest => max v.nesting (nestingItems rest)

/-- The deepest nesting among the members' values. -/
def nestingMembers : List (String × Json) → Nat
  | [] => 0
  | (_, v) :: rest => max v.nesting (nestingMembers rest)

end

example : ofMembers [("b", .int 1), ("a", .null), ("b", .int 2)] =
    .obj [("a", .null), ("b", .int 2)] := by decide +kernel

end Json

end WorkQueue
