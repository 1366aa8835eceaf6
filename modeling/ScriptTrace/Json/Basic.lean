import ScriptTrace.Number.Basic

/-!
# JSON values

The data that a recorded step carries.  Integers and floating-point numbers are kept apart, because
they are written differently: `2` and `2.0` are two documents.

The fields of an object are a list in the order of construction.  `sortKeys` puts them in the order
of their keys, which is the order in which a map of fields is written.

* `Json`: the values.
* `Json.field?`: the value of a field of an object.
* `Json.sortKeys`: the same value with all fields in the order of their keys.
-/

namespace ScriptTrace

/-- A JSON value. -/
inductive Json where
  | null
  | bool (value : Bool)
  | int (value : Int)
  | num (value : Number)
  | str (value : String)
  | arr (items : List Json)
  | obj (fields : List (String × Json))

instance : Inhabited Json := ⟨.null⟩

namespace Json

/-- The natural number as a JSON value. -/
def nat (n : Nat) : Json :=
  .int n

/-- The list of texts as a JSON value. -/
def strings (xs : List String) : Json :=
  .arr (xs.map .str)

/-- The value of a field; a value that is no object has no fields. -/
def field? (key : String) : Json → Option Json
  | .obj fields => fields.lookup key
  | _ => none

/-- Puts a field in front of the first field whose key is not smaller. -/
def insertField (key : String) (value : Json) : List (String × Json) → List (String × Json)
  | [] => [(key, value)]
  | (k, v) :: rest =>
    if k < key then (k, v) :: insertField key value rest else (key, value) :: (k, v) :: rest

mutual

/-- The same value with the fields of every object in the order of their keys.  Keys are ordered by
code points, which is also the order of their UTF-8 bytes. -/
def sortKeys : Json → Json
  | .arr items => .arr (sortItems items)
  | .obj fields => .obj (sortFields fields)
  | .null => .null
  | .bool b => .bool b
  | .int i => .int i
  | .num x => .num x
  | .str s => .str s

/-- The items of an array, each with its fields in order. -/
def sortItems : List Json → List Json
  | [] => []
  | x :: xs => sortKeys x :: sortItems xs

/-- The fields of an object in order, each with the fields of its value in order. -/
def sortFields : List (String × Json) → List (String × Json)
  | [] => []
  | (k, v) :: rest => insertField k (sortKeys v) (sortFields rest)

end

end Json

end ScriptTrace
