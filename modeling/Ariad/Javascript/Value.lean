import Mathlib.Data.Char
import Mathlib.Data.List.Lex
import Mathlib.Data.Rat.Defs
import Mathlib.Algebra.Order.Field.Rat
import Ariad.Javascript.Text

/-!
# Numbers and values

* `Num` — the numbers. A finite number stands for itself as a rational.
* `Js` — the values that a YAML or JSON parser makes, and dates.
* `Js.stored` — what `JSON.parse` reads back of what `JSON.stringify` wrote. A JSON text stands for the
  value it denotes, so two values have the same text if they are stored as the same value.
* `JsFields.sortKeys` — the same object with its keys in order, at every depth of objects.
-/

namespace Ariad

/-- A number. -/
inductive Num where
  | nan
  | infinite (negative : Bool)
  | finite (q : ℚ)
  deriving DecidableEq

mutual

/-- A value. -/
inductive Js where
  | null
  | bool (b : Bool)
  | num (n : Num)
  | str (s : Text)
  /-- A `Date`, by its ISO text. -/
  | date (iso : Text)
  | arr (items : JsItems)
  | obj (fields : JsFields)

/-- The items of an array. -/
inductive JsItems where
  | nil
  | cons (v : Js) (rest : JsItems)

/-- The own fields of an object, in order. -/
inductive JsFields where
  | nil
  | cons (key : Text) (v : Js) (rest : JsFields)

end

/-! ## Equality -/

mutual

def Js.decEq (a b : Js) : Decidable (a = b) :=
  match a, b with
  | .null, .null => isTrue rfl
  | .bool x, .bool y => decidable_of_iff (x = y) (by simp)
  | .num x, .num y => decidable_of_iff (x = y) (by simp)
  | .str x, .str y => decidable_of_iff (x = y) (by simp)
  | .date x, .date y => decidable_of_iff (x = y) (by simp)
  | .arr x, .arr y => @decidable_of_iff _ (x = y) (by simp) (x.decEq y)
  | .obj x, .obj y => @decidable_of_iff _ (x = y) (by simp) (x.decEq y)
  | .null, .bool _ | .null, .num _ | .null, .str _ | .null, .date _ | .null, .arr _ | .null, .obj _
  | .bool _, .null | .bool _, .num _ | .bool _, .str _ | .bool _, .date _ | .bool _, .arr _
  | .bool _, .obj _ | .num _, .null | .num _, .bool _ | .num _, .str _ | .num _, .date _
  | .num _, .arr _ | .num _, .obj _ | .str _, .null | .str _, .bool _ | .str _, .num _
  | .str _, .date _ | .str _, .arr _ | .str _, .obj _ | .date _, .null | .date _, .bool _
  | .date _, .num _ | .date _, .str _ | .date _, .arr _ | .date _, .obj _ | .arr _, .null
  | .arr _, .bool _ | .arr _, .num _ | .arr _, .str _ | .arr _, .date _ | .arr _, .obj _
  | .obj _, .null | .obj _, .bool _ | .obj _, .num _ | .obj _, .str _ | .obj _, .date _
  | .obj _, .arr _ => isFalse (by simp)

def JsItems.decEq (a b : JsItems) : Decidable (a = b) :=
  match a, b with
  | .nil, .nil => isTrue rfl
  | .nil, .cons _ _ | .cons _ _, .nil => isFalse (by simp)
  | .cons v r, .cons w s =>
    @decidable_of_iff _ (v = w ∧ r = s) (by simp) (@instDecidableAnd _ _ (v.decEq w) (r.decEq s))

def JsFields.decEq (a b : JsFields) : Decidable (a = b) :=
  match a, b with
  | .nil, .nil => isTrue rfl
  | .nil, .cons _ _ _ | .cons _ _ _, .nil => isFalse (by simp)
  | .cons k v r, .cons l w s =>
    @decidable_of_iff _ (k = l ∧ v = w ∧ r = s) (by simp)
      (@instDecidableAnd _ _ _ (@instDecidableAnd _ _ (v.decEq w) (r.decEq s)))

end

instance : DecidableEq Js := Js.decEq

instance : DecidableEq JsItems := JsItems.decEq

instance : DecidableEq JsFields := JsFields.decEq

/-! ## JSON -/

mutual

/-- The value that a JSON text of the value denotes. -/
def Js.stored : Js → Js
  | .null => .null
  | .bool b => .bool b
  | .num (.finite q) => .num (.finite q)
  | .num _ => .null
  | .str s => .str s
  | .date iso => .str iso
  | .arr items => .arr items.stored
  | .obj fields => .obj fields.stored

def JsItems.stored : JsItems → JsItems
  | .nil => .nil
  | .cons v rest => .cons v.stored rest.stored

def JsFields.stored : JsFields → JsFields
  | .nil => .nil
  | .cons key v rest => .cons key v.stored rest.stored

end

mutual

@[simp] theorem Js.stored_stored : ∀ v : Js, v.stored.stored = v.stored
  | .null | .bool _ | .str _ | .date _ | .num (.finite _) | .num .nan | .num (.infinite _) => by
    simp [Js.stored]
  | .arr items => by simp [Js.stored, items.stored_stored]
  | .obj fields => by simp [Js.stored, fields.stored_stored]

@[simp] theorem JsItems.stored_stored : ∀ l : JsItems, l.stored.stored = l.stored
  | .nil => rfl
  | .cons v rest => by simp [JsItems.stored, v.stored_stored, rest.stored_stored]

@[simp] theorem JsFields.stored_stored : ∀ l : JsFields, l.stored.stored = l.stored
  | .nil => rfl
  | .cons key v rest => by simp [JsFields.stored, v.stored_stored, rest.stored_stored]

end

/-! ## Objects -/

namespace JsItems

/-- The items as a list. -/
def toList : JsItems → List Js
  | .nil => []
  | .cons v rest => v :: rest.toList

/-- An array of the items. -/
def ofList : List Js → JsItems
  | [] => .nil
  | v :: rest => .cons v (ofList rest)

@[simp] theorem toList_ofList (l : List Js) : (ofList l).toList = l := by
  induction l with
  | nil => rfl
  | cons v l ih => simp [ofList, toList, ih]

end JsItems

namespace JsFields

/-- The value of a field. A missing field is `undefined`. -/
def get (k : Text) : JsFields → Option Js
  | .nil => none
  | .cons key v rest => if key = k then some v else rest.get k

/-- `o[k] = v`: in its place if the key is there, at the end otherwise. -/
def assign (k : Text) (v : Js) : JsFields → JsFields
  | .nil => .cons k v .nil
  | .cons key w rest => if key = k then .cons key v rest else .cons key w (rest.assign k v)

/-- `delete o[k]`. -/
def erase (k : Text) : JsFields → JsFields
  | .nil => .nil
  | .cons key v rest => if key = k then rest.erase k else .cons key v (rest.erase k)

@[simp] theorem get_assign_self (k : Text) (v : Js) : ∀ o : JsFields, (o.assign k v).get k = some v
  | .nil => by simp [assign, get]
  | .cons key w rest => by
    rw [assign]
    split
    · simp [get, *]
    · simp [get, *, get_assign_self k v rest]

theorem get_assign_of_ne {k l : Text} (v : Js) (h : k ≠ l) :
    ∀ o : JsFields, (o.assign k v).get l = o.get l
  | .nil => by simp [assign, get, h]
  | .cons key w rest => by
    rw [assign]
    split
    · rename_i hk
      simp [get, hk, h]
    · simp [get, get_assign_of_ne v h rest]

theorem get_erase_of_ne {k l : Text} (h : k ≠ l) : ∀ o : JsFields, (o.erase k).get l = o.get l
  | .nil => rfl
  | .cons key w rest => by
    rw [erase]
    split
    · rename_i hk
      simp [get, hk, h, get_erase_of_ne h rest]
    · simp [get, get_erase_of_ne h rest]

theorem get_stored (k : Text) : ∀ o : JsFields, o.stored.get k = (o.get k).map Js.stored
  | .nil => rfl
  | .cons key w rest => by
    rw [stored, get, get]
    split
    · rfl
    · exact get_stored k rest

end JsFields

/-! ## Keys in order -/

/-- The order of keys. -/
def keyLE (a b : Text) : Bool := decide (a ≤ b)

/-- A field put before the first field with a greater key. -/
def JsFields.insertSorted (k : Text) (v : Js) : JsFields → JsFields
  | .nil => .cons k v .nil
  | .cons key w rest =>
    if keyLE k key then .cons k v (.cons key w rest) else .cons key w (rest.insertSorted k v)

mutual

/-- An object with its keys in order; any other value that is not an array counts as an object of its
own keys, of which a date has none. -/
def Js.sortKeys : Js → Js
  | .obj fields => .obj fields.sortKeys
  | .date _ => .obj .nil
  | v => v

def JsFields.sortKeys : JsFields → JsFields
  | .nil => .nil
  | .cons key v rest => rest.sortKeys.insertSorted key v.sortKeys

end

end Ariad
