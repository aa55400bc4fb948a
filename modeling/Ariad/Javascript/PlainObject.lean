import Ariad.Javascript.OrderedMap
import Ariad.Javascript.Text

/-!
# Counters in plain objects

`o[k] = (o[k] ?? 0) + n` on an object `{}`. A property that is not there is looked for in `Object.prototype`, which
has methods.

* `readCount`, `writeCount` — `o[k] ?? 0`, and the assignment.
* `countRows` — a loop that adds up rows under their keys.
* `Histogram` — every key has the sum of its rows; `histogram_iff`: if and only if no key is inherited.
-/

namespace Ariad.PlainObject

open List OrderedMap

/-- What a property has that is meant to be a number. -/
inductive Counter where
  | number (n : ℕ)
  | text (t : Text)
  deriving DecidableEq

/-- `v + n` -/
def Counter.plus : Counter → ℕ → Counter
  | number m, n => number (m + n)
  | text t, n => text (t ++ Nat.toDigits 10 n)

/-- The methods that every object inherits. -/
def prototypeMethods : List Text :=
  ["constructor".toList, "hasOwnProperty".toList, "isPrototypeOf".toList, "propertyIsEnumerable".toList,
    "toLocaleString".toList, "toString".toList, "valueOf".toList, "__defineGetter__".toList, "__defineSetter__".toList,
    "__lookupGetter__".toList, "__lookupSetter__".toList]

def proto : Text := "__proto__".toList

/-- The keys that an empty object seems to have. -/
def prototypeNames : List Text := proto :: prototypeMethods

/-- A method as a text: `constructor` is the function `Object`. -/
def methodText (name : Text) : Text :=
  "function ".toList ++ (if name = "constructor".toList then "Object".toList else name) ++
    "() \x7b [native code] \x7d".toList

/-- `o[k] ?? 0`, in the way `+` takes it. -/
def readCount (o : OrderedMap Text Counter) (k : Text) : Counter :=
  match o.get k with
  | some v => v
  | none =>
    if k = proto then .text "[object Object]".toList
    else if k ∈ prototypeMethods then .text (methodText k)
    else .number 0

/-- `o[k] = v`. A value that is no object does not become the prototype. -/
def writeCount (o : OrderedMap Text Counter) (k : Text) (v : Counter) : OrderedMap Text Counter :=
  if k = proto then o else o.set k v

variable {ρ : Type} (key : ρ → Text) (weight : ρ → ℕ)

/-- `o[k] = (o[k] ?? 0) + n` -/
def addCount (o : OrderedMap Text Counter) (r : ρ) : OrderedMap Text Counter :=
  writeCount o (key r) ((readCount o (key r)).plus (weight r))

def countRows (rows : List ρ) : OrderedMap Text Counter := rows.foldl (addCount key weight) .empty

/-- Every key of the rows has the sum of its rows, and there are no other keys. -/
def Histogram (rows : List ρ) (o : OrderedMap Text Counter) : Prop :=
  ∀ k, o.get k = if (rows.filter fun r => key r = k) = [] then none
    else some (.number ((rows.filter fun r => key r = k).map weight).sum)

variable {key weight} {rows : List ρ} {o : OrderedMap Text Counter} {k : Text}

/-- A key that is inherited never gets a number. -/
theorem get_foldl_addCount_ne_number (hk : k ∈ prototypeNames) (h : ∀ n, o.get k ≠ some (.number n)) (n : ℕ) :
    (rows.foldl (addCount key weight) o).get k ≠ some (.number n) := by
  induction rows generalizing o with
  | nil => exact h n
  | cons r rows ih =>
    rw [foldl_cons]
    refine ih fun m => ?_
    rw [addCount, writeCount]
    split
    · exact h m
    · rename_i hproto
      rw [get_set]
      split
      · rename_i heq
        subst heq
        have hmethod : key r ∈ prototypeMethods := (mem_cons.mp hk).resolve_left hproto
        rw [readCount]
        cases hget : o.get (key r) with
        | none => simp [hproto, hmethod, Counter.plus]
        | some v =>
          cases v with
          | number l => exact absurd hget (h l)
          | text t => simp [Counter.plus]
      · exact h m

/-- Other keys are counted as in a `Map`. -/
theorem foldl_addCount_eq (h : ∀ r ∈ rows, key r ∉ prototypeNames) : rows.foldl (addCount key weight) o =
    rows.foldl (fun o r => o.set (key r) (((o.get (key r)).getD (.number 0)).plus (weight r))) o := by
  induction rows generalizing o with
  | nil => rfl
  | cons r rows ih =>
    have hr := h r mem_cons_self
    rw [prototypeNames, mem_cons, not_or] at hr
    have hstep : addCount key weight o r = o.set (key r) (((o.get (key r)).getD (.number 0)).plus (weight r)) := by
      rw [addCount, writeCount, if_neg hr.1, readCount]
      cases o.get (key r) with
      | none => simp [hr.1, hr.2]
      | some v => rfl
    rw [foldl_cons, foldl_cons, hstep, ih fun r hr => h r (mem_cons_of_mem _ hr)]

theorem foldl_plus (rows : List ρ) (n : ℕ) :
    rows.foldl (fun v r => some ((v.getD (Counter.number 0)).plus (weight r))) (some (.number n)) =
      some (.number (n + (rows.map weight).sum)) := by
  induction rows generalizing n with
  | nil => rfl
  | cons r rows ih =>
    rw [foldl_cons, map_cons, sum_cons, ← Nat.add_assoc]
    exact ih (n + weight r)

/-- What was counted in a plain object is no histogram with an inherited key. -/
theorem notMem_of_histogram {rows' : List ρ} (h : Histogram key weight rows' (countRows key weight rows)) :
    ∀ r ∈ rows', key r ∉ prototypeNames := by
  intro r hr hname
  have hget := h (key r)
  rw [if_neg (ne_nil_of_mem (mem_filter.mpr ⟨hr, decide_eq_true rfl⟩))] at hget
  exact get_foldl_addCount_ne_number hname (by simp) _ hget

/-- **The counters of a plain object are right** as long as no row has the key of an inherited property. -/
theorem histogram_iff : Histogram key weight rows (countRows key weight rows) ↔ ∀ r ∈ rows, key r ∉ prototypeNames := by
  constructor
  · exact notMem_of_histogram
  · intro h k
    rw [countRows, foldl_addCount_eq h, get_foldl_set key
      fun r (v : Option Counter) => (v.getD (.number 0)).plus (weight r), get_empty]
    cases hrows : rows.filter fun r => key r = k with
    | nil => rfl
    | cons r rest =>
      rw [if_neg (cons_ne_nil _ _), foldl_cons, map_cons, sum_cons, Option.getD_none, Counter.plus,
        Nat.zero_add, foldl_plus]

end Ariad.PlainObject
