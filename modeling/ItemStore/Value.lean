import ItemStore.Binary64.Shortest
import ItemStore.NameMap
import ItemStore.Text.Quoted

/-!
# Attribute values

An attribute holds one typed value: a string, a number kept as its decimal text, binary data, a
set of one of these, a truth value, the null marker, a list or a map. An item is a map from
attribute names to values. Equality of values is equality of what is written: the spelling of a
number, the order of a set and the payload of the null marker all count.
-/

namespace ItemStore

/-- The kinds of attribute values. -/
inductive Kind where
  | string | number | binary
  | stringSet | numberSet | binarySet
  | bool | null | list | map
deriving DecidableEq, Repr

namespace Kind

/-- The tag of a kind in exchanged data. -/
def tag : Kind → String
  | string => "S"
  | number => "N"
  | binary => "B"
  | stringSet => "SS"
  | numberSet => "NS"
  | binarySet => "BS"
  | bool => "BOOL"
  | null => "NULL"
  | list => "L"
  | map => "M"

/-- All kinds, in the order in which their tags are listed. -/
def all : List Kind :=
  [string, number, binary, stringSet, numberSet, binarySet, bool, null, list, map]

/-- The kind with a tag. -/
def ofTag? (t : String) : Option Kind := all.find? fun k => k.tag == t

theorem ofTag?_tag (k : Kind) : ofTag? k.tag = some k := by
  cases k <;> rfl

end Kind

/-- An attribute value. -/
inductive Value where
  | string (s : String)
  | number (text : String)
  | binary (bytes : List UInt8)
  | stringSet (members : List String)
  | numberSet (members : List String)
  | binarySet (members : List (List UInt8))
  | bool (b : Bool)
  | null (flag : Bool)
  | list (elements : List Value)
  | map (entries : List (String × Value))
deriving Hashable

/-- A stored item: its attributes by name. -/
abbrev Item := NameMap Value

namespace Value

/-- The kind of a value. -/
def kind : Value → Kind
  | string _ => .string
  | number _ => .number
  | binary _ => .binary
  | stringSet _ => .stringSet
  | numberSet _ => .numberSet
  | binarySet _ => .binarySet
  | bool _ => .bool
  | null _ => .null
  | list _ => .list
  | map _ => .map

/-- Strings, numbers and binary data may be key attributes. -/
def isScalarKey (v : Value) : Bool :=
  match v.kind with
  | .string | .number | .binary => true
  | _ => false

def asString? : Value → Option String
  | string s => some s
  | _ => none

def asNumber? : Value → Option String
  | number n => some n
  | _ => none

def asBool? : Value → Option Bool
  | bool b => some b
  | _ => none

def asList? : Value → Option (List Value)
  | list xs => some xs
  | _ => none

def asMap? : Value → Option Item
  | map m => some m
  | _ => none

/-- An integer as a value. -/
def ofInt (i : Int) : Value := number (toString i)

/-- A double as a value, in the plain layout. -/
def ofDouble (x : Binary64) : Value := number (x.text Binary64.plain)

/-- How a value is shown inside a message: scalars in full, collections by their size. -/
def display : Value → String
  | string s => s
  | number n => n
  | binary b => "<" ++ toString b.length ++ " bytes>"
  | stringSet ms => Text.quotedList ms
  | numberSet ms => Text.quotedList ms
  | binarySet ms => "<" ++ toString ms.length ++ " binaries>"
  | bool b => if b then "true" else "false"
  | null _ => "null"
  | list xs => "[" ++ toString xs.length ++ " items]"
  | map m => "\x7b" ++ toString m.length ++ " keys\x7d"

/-! ## Equality -/

mutual

/-- Equality of values, part by part. -/
def beq : Value → Value → Bool
  | string a, string b => a == b
  | number a, number b => a == b
  | binary a, binary b => a == b
  | stringSet a, stringSet b => a == b
  | numberSet a, numberSet b => a == b
  | binarySet a, binarySet b => a == b
  | bool a, bool b => a == b
  | null a, null b => a == b
  | list a, list b => beqElements a b
  | map a, map b => beqEntries a b
  | _, _ => false

def beqElements : List Value → List Value → Bool
  | [], [] => true
  | x :: xs, y :: ys => beq x y && beqElements xs ys
  | _, _ => false

def beqEntries : List (String × Value) → List (String × Value) → Bool
  | [], [] => true
  | (m, x) :: xs, (n, y) :: ys => m == n && beq x y && beqEntries xs ys
  | _, _ => false

end

mutual

theorem beq_refl : ∀ v : Value, beq v v = true
  | string _ | number _ | binary _ | stringSet _ | numberSet _ | binarySet _ | bool _ | null _ => by
      simp [beq]
  | list xs => by simp [beq, beqElements_refl xs]
  | map es => by simp [beq, beqEntries_refl es]

theorem beqElements_refl : ∀ xs : List Value, beqElements xs xs = true
  | [] => by simp [beqElements]
  | x :: xs => by simp [beqElements, beq_refl x, beqElements_refl xs]

theorem beqEntries_refl : ∀ es : List (String × Value), beqEntries es es = true
  | [] => by simp [beqEntries]
  | (_, x) :: es => by simp [beqEntries, beq_refl x, beqEntries_refl es]

end

mutual

theorem eq_of_beq : ∀ {a b : Value}, beq a b = true → a = b
  | string _, b, h | number _, b, h | binary _, b, h | stringSet _, b, h | numberSet _, b, h
  | binarySet _, b, h | bool _, b, h | null _, b, h => by
      cases b <;> simp_all [beq]
  | list xs, b, h => by
      cases b <;> simp only [beq, Bool.false_eq_true] at h
      rw [eq_of_beqElements h]
  | map es, b, h => by
      cases b <;> simp only [beq, Bool.false_eq_true] at h
      rw [eq_of_beqEntries h]

theorem eq_of_beqElements : ∀ {xs ys : List Value}, beqElements xs ys = true → xs = ys
  | [], ys, h => by cases ys <;> simp_all [beqElements]
  | x :: xs, [], h => by simp [beqElements] at h
  | x :: xs, y :: ys, h => by
      simp only [beqElements, Bool.and_eq_true] at h
      rw [eq_of_beq h.1, eq_of_beqElements h.2]

theorem eq_of_beqEntries : ∀ {es fs : List (String × Value)}, beqEntries es fs = true → es = fs
  | [], fs, h => by cases fs <;> simp_all [beqEntries]
  | (m, x) :: es, [], h => by simp [beqEntries] at h
  | (m, x) :: es, (n, y) :: fs, h => by
      simp only [beqEntries, Bool.and_eq_true, beq_iff_eq] at h
      rw [h.1.1, eq_of_beq h.1.2, eq_of_beqEntries h.2]

end

theorem beq_iff {a b : Value} : beq a b = true ↔ a = b :=
  ⟨eq_of_beq, fun h => h ▸ beq_refl a⟩

instance : DecidableEq Value := fun a b => decidable_of_iff (beq a b = true) beq_iff

end Value

end ItemStore
