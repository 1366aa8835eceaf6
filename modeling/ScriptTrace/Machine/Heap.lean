import ScriptTrace.Machine.Value
import ScriptTrace.Table

/-!
# The heap

Two regions: a table of functions, filled by hoisting, and an array of objects, one for every object
literal that has been evaluated.  Nothing is ever freed.

A snapshot is the value as data, at one moment: objects are unfolded, and a reference back into an
object that is being unfolded is cut off.  The unfolding is a recursion on the number of objects
that may still be opened.  It starts with the size of the heap, every object opened on the way down
is a different one, and only an object of the heap has properties; so where the number has come down
to zero, a fresh reference is to no object of the heap, and unfolds to nothing.

* `Heap.object?`, `Heap.property`, `Heap.setProperty`, `Heap.allocate`: the objects.
* `Heap.function?`, `Heap.storeFunction`, `Heap.functionNames`: the functions.
* `Heap.snapshot`: a value as data.
-/

namespace ScriptTrace

/-- An object: its properties in order of first insertion. -/
abbrev Object := Table Value

/-- The two regions of the heap. -/
structure Heap where
  functions : Table FunctionId := .empty
  objects : Array Object := #[]

namespace Heap

/-- The function stored under a name. -/
def function? (h : Heap) (name : String) : Option FunctionId :=
  h.functions.get? name

/-- Stores a function under a name, in the place of one that was there. -/
def storeFunction (h : Heap) (name : String) (id : FunctionId) : Heap :=
  { h with functions := h.functions.put name id }

/-- The names of the stored functions, in order. -/
def functionNames (h : Heap) : List String :=
  h.functions.keys.mergeSort fun a b => a ≤ b

/-- The object with an index. -/
def object? (h : Heap) (id : ObjectId) : Option Object :=
  h.objects[id]?

/-- Puts an object without properties at the end of the array; its index is the number of objects
before. -/
def allocate (h : Heap) : Heap :=
  { h with objects := h.objects.push .empty }

/-- Writes a property; a reference to no object writes nothing. -/
def setProperty (h : Heap) (id : ObjectId) (key : String) (value : Value) : Heap :=
  { h with objects := h.objects.modify id fun o => o.put key value }

/-- The value of a property of a value.  What is missing, or has no properties, reads as
`undefined`. -/
def property (h : Heap) (base : Value) (key : String) : Value :=
  ((base.objectId?.bind h.object?).bind fun o => o.get? key).getD .undefined

/-- An object that is there has its own properties, and the others read as `undefined`. -/
theorem property_of_object? {h : Heap} {id : ObjectId} {object : Object}
    (there : h.object? id = some object) (key : String) :
    h.property (.object id) key = (object.get? key).getD .undefined := by
  rw [property, Value.objectId?, Option.bind_some, there, Option.bind_some]

theorem object?_allocate (h : Heap) (id : ObjectId) :
    h.allocate.object? id = if id = h.objects.size then some .empty else h.object? id :=
  Array.getElem?_push

theorem object?_setProperty (h : Heap) (target : ObjectId) (key : String) (value : Value)
    (id : ObjectId) :
    (h.setProperty target key value).object? id =
      if target = id then (h.object? id).map fun o => o.put key value else h.object? id :=
  Array.getElem?_modify

theorem size_allocate (h : Heap) : h.allocate.objects.size = h.objects.size + 1 :=
  Array.size_push _

theorem lt_size_allocate (h : Heap) : h.objects.size < h.allocate.objects.size := by
  rw [size_allocate]
  exact Nat.lt_succ_self _

theorem size_setProperty (h : Heap) (target : ObjectId) (key : String) (value : Value) :
    (h.setProperty target key value).objects.size = h.objects.size :=
  Array.size_modify

/-- The properties of an object; a reference to no object has none. -/
def properties (h : Heap) (id : ObjectId) : List (String × Value) :=
  ((h.object? id).map fun o => o.entries).getD []

/-- A value as data, where the objects `opened` are being unfolded and at most `budget` more may
be. -/
def unfold (h : Heap) : Nat → List ObjectId → Value → Json
  | _, _, .undefined | _, _, .null => .null
  | _, _, .bool b => .bool b
  | _, _, .str s => .str s
  | _, _, .num x => x.toJson
  | _, _, .function name => .str (Value.function name).text
  | budget, opened, .object id =>
    if id ∈ opened then .str "[Circular]"
    else match budget with
      | 0 => .obj []
      | budget + 1 =>
        .obj ((h.properties id).map fun (key, value) => (key, unfold h budget (id :: opened) value))

/-- A value as data. -/
def snapshot (h : Heap) (value : Value) : Json :=
  h.unfold h.objects.size [] value

end Heap

end ScriptTrace
