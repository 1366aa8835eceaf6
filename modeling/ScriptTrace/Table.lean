/-!
# Insertion-ordered tables

The properties of an object and the bindings of a scope are tables: names with values, in the order
in which the names were first written.  Writing to a name that is there keeps its place.

* `Table.get?`: the value of the last write to a name.
* `Table.put`: a write.
* `Table.keys`: the names in order of first insertion.
-/

namespace ScriptTrace

/-- Names with values, in order of first insertion. -/
structure Table (α : Type) where
  entries : List (String × α)
  deriving DecidableEq, Repr

namespace Table

variable {α : Type}

/-- The table without names. -/
def empty : Table α := ⟨[]⟩

instance : Inhabited (Table α) := ⟨empty⟩

/-- The value under the first entry with a name. -/
def getIn? (key : String) : List (String × α) → Option α
  | [] => none
  | (k, v) :: rest => if k = key then some v else getIn? key rest

/-- The entries after a write. -/
def putIn (key : String) (value : α) : List (String × α) → List (String × α)
  | [] => [(key, value)]
  | (k, v) :: rest => if k = key then (k, value) :: rest else (k, v) :: putIn key value rest

/-- The value under a name. -/
def get? (t : Table α) (key : String) : Option α :=
  getIn? key t.entries

/-- Whether a name is in the table. -/
def contains (t : Table α) (key : String) : Bool :=
  (t.get? key).isSome

/-- The table after a write: a name that is there keeps its place, another one goes to the end. -/
def put (t : Table α) (key : String) (value : α) : Table α :=
  ⟨putIn key value t.entries⟩

/-- The names in order of first insertion. -/
def keys (t : Table α) : List String :=
  t.entries.map (·.1)

/-! ## Reading after writing -/

theorem getIn?_putIn (key k : String) (v : α) (es : List (String × α)) :
    getIn? key (putIn k v es) = if k = key then some v else getIn? key es := by
  induction es with
  | nil => simp [putIn, getIn?]
  | cons e es ih =>
    obtain ⟨k', v'⟩ := e
    by_cases h : k' = k
    · subst h
      by_cases hk : k' = key <;> simp [putIn, getIn?, hk]
    · by_cases hk : k' = key
      · subst hk
        simp [putIn, getIn?, h, Ne.symm h]
      · simp [putIn, getIn?, h, hk, ih]

/-- A read after a write sees the write, and every other name as before. -/
@[simp] theorem get?_put (t : Table α) (key k : String) (v : α) :
    (t.put k v).get? key = if k = key then some v else t.get? key :=
  getIn?_putIn key k v t.entries

theorem keys_putIn (k : String) (v : α) (es : List (String × α)) :
    (putIn k v es).map (·.1) =
      if k ∈ es.map (·.1) then es.map (·.1) else es.map (·.1) ++ [k] := by
  induction es with
  | nil => simp [putIn]
  | cons e es ih =>
    obtain ⟨k', v'⟩ := e
    by_cases h : k' = k
    · subst h
      simp [putIn]
    · have h' : ¬ k = k' := fun hk => h hk.symm
      by_cases hm : k ∈ es.map (·.1)
      · simp only [putIn, h, if_false, List.map_cons, ih, hm, if_true, List.mem_cons, h', false_or]
      · simp only [putIn, h, if_false, List.map_cons, ih, hm, List.mem_cons, h', false_or,
          List.cons_append]

/-- A write keeps the names in place and puts a new one at the end. -/
theorem keys_put (t : Table α) (k : String) (v : α) :
    (t.put k v).keys = if k ∈ t.keys then t.keys else t.keys ++ [k] :=
  keys_putIn k v t.entries

end Table

end ScriptTrace
