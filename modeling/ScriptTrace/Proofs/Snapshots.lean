import Mathlib.Data.List.Nodup
import ScriptTrace.Proofs.References
import ScriptTrace.Proofs.Termination

/-!
# A snapshot is the heap, unfolded along paths

The objects of a heap refer to each other in any way: two properties may share an object, and a
chain of properties may lead back to where it began.  A snapshot is a tree, so it repeats what is
shared and has to cut what goes round in circles.  This file says which tree it is.

A path of keys can be followed on both sides.  In the data it goes from field to field
(`Json.follow?`).  In the heap it goes from property to property, and passes through objects on the
way (`Heap.Follows`).  The data have the path exactly if the objects that it passes through are
pairwise different, and what the data hold there depends on the value at the end of the path and on
those objects alone (`Heap.Renders`): an object is cut off if the path has passed through it, and
unfolded otherwise.  So it does not matter what was unfolded elsewhere, and a shared object is
unfolded wherever it is met.

All of this is read off the relation `Heap.Unfolds`, which has no bound on the depth, and of which
the snapshot is the only result (`Heap.Unfolds.eq_snapshot`).  The induction is on the path, and the
objects that are open are those that the path has passed through, with the last one first.

The relation looks at the objects that are reachable from the value and at no others, which is why
a change elsewhere in the heap cannot be seen in a snapshot (`Heap.snapshot_eq_of_reaches`).

* `Json.follow?`, `Heap.Follows`: paths through data and through the heap.
* `Heap.Renders`: what stands at the end of a path.
* `Heap.Reaches`: the objects that are reachable from a value.
* `snapshot_unfolds_paths`: the snapshot, path by path.
-/

namespace ScriptTrace

/-! ## Paths -/

/-- What a path of keys leads to, from field to field. -/
def Json.follow? : List String → Json → Option Json
  | [], data => some data
  | key :: path, data => (data.field? key).bind (follow? path)

namespace Heap

/-- The value that an object of the heap has under a key. -/
def held? (h : Heap) (id : ObjectId) (key : String) : Option Value :=
  (h.object? id).bind fun object => object.get? key

/-- The path of keys from a value, with the objects that it passes through and the value that it
leads to.  The last value is not passed through. -/
inductive Follows (h : Heap) : Value → List String → List ObjectId → Value → Prop
  | here (value : Value) : Follows h value [] [] value
  | through {id : ObjectId} {key : String} {held last : Value} {path : List String}
      {ids : List ObjectId} (found : h.held? id key = some held)
      (rest : Follows h held path ids last) : Follows h (.object id) (key :: path) (id :: ids) last

/-- The data at the end of a path that has passed through some objects. -/
inductive Renders (h : Heap) (passed : List ObjectId) : Value → Json → Prop
  /-- The path leads back to an object that it has passed through. -/
  | circular {id : ObjectId} (mem : id ∈ passed) : Renders h passed (.object id) (.str "[Circular]")
  /-- The path leads to any other object, and the data have the keys of that object. -/
  | object {id : ObjectId} {fields : List (String × Json)} (fresh : id ∉ passed)
      (keys : fields.map Prod.fst = (h.properties id).map Prod.fst) :
      Renders h passed (.object id) (.obj fields)
  | undefined : Renders h passed .undefined .null
  | null : Renders h passed .null .null
  | bool (b : Bool) : Renders h passed (.bool b) (.bool b)
  | str (s : String) : Renders h passed (.str s) (.str s)
  | num (x : Number) : Renders h passed (.num x) x.toJson
  | function (name : String) :
      Renders h passed (.function name) (.str ("[Function: " ++ name ++ "]"))

/-- An object is reachable from a value, along properties. -/
inductive Reaches (h : Heap) : Value → ObjectId → Prop
  | here (id : ObjectId) : Reaches h (.object id) id
  | along {id target : ObjectId} {entry : String × Value} (mem : entry ∈ h.properties id)
      (rest : Reaches h entry.2 target) : Reaches h (.object id) target

/-! ## The unfolding of a value -/

/-- A value has at most one unfolding. -/
theorem Unfolds.unique {h : Heap} {opened : List ObjectId} {value : Value} {data other : Json}
    (unfolds : h.Unfolds opened value data) (unfolds' : h.Unfolds opened value other) :
    data = other := by
  induction unfolds generalizing other with
  | circular mem =>
    cases unfolds' with
    | circular _ => rfl
    | object fresh _ => exact absurd mem fresh
  | object fresh each ih =>
    cases unfolds' with
    | circular mem => exact absurd mem fresh
    | object _ each' =>
      refine congrArg Json.obj (List.map_congr_left fun property mem => ?_)
      rw [ih property mem (each' property mem)]
  | _ =>
    cases unfolds'
    rfl

/-- The snapshot is the only unfolding. -/
theorem Unfolds.eq_snapshot {h : Heap} {value : Value} {data : Json}
    (unfolds : h.Unfolds [] value data) : data = h.snapshot value :=
  unfolds.unique (h.unfolds_snapshot value)

/-- What stands at the end of a path, if the objects that it has passed through are open. -/
theorem Unfolds.renders {h : Heap} {opened passed : List ObjectId} {value : Value} {data : Json}
    (unfolds : h.Unfolds opened value data) (same : ∀ id, id ∈ opened ↔ id ∈ passed) :
    h.Renders passed value data := by
  cases unfolds with
  | circular mem => exact .circular ((same _).mp mem)
  | object fresh each =>
    refine .object (fun mem => fresh ((same _).mpr mem)) ?_
    rw [List.map_map]
    rfl
  | _ => constructor

/-! ## Paths through an unfolding -/

/-- A field of the data of an object is the data of the property with that key. -/
theorem lookup_map_entries (data : String × Value → Json) (key : String)
    (entries : List (String × Value)) :
    (entries.map fun entry => (entry.1, data entry)).lookup key =
      (Table.getIn? key entries).map fun value => data (key, value) := by
  induction entries with
  | nil => rfl
  | cons entry rest ih =>
    obtain ⟨k, v⟩ := entry
    by_cases same : k = key
    · simp [Table.getIn?, same]
    · have differs : (key == k) = false := by simpa using Ne.symm same
      simp [List.lookup_cons, differs, Table.getIn?, same, ih]

theorem getIn?_properties (h : Heap) (id : ObjectId) (key : String) :
    Table.getIn? key (h.properties id) = h.held? id key := by
  rw [properties, held?]
  cases h.object? id <;> rfl

theorem mem_properties_of_held? {h : Heap} {id : ObjectId} {key : String} {value : Value}
    (found : h.held? id key = some value) : (key, value) ∈ h.properties id := by
  rw [← getIn?_properties] at found
  exact Table.mem_entries_of_get? (t := ⟨h.properties id⟩) found

theorem toJson_ne_obj (x : Number) (fields : List (String × Json)) : x.toJson ≠ .obj fields := by
  unfold Number.toJson
  split
  · split <;> simp
  · simp

theorem field?_toJson (x : Number) (key : String) : x.toJson.field? key = none := by
  unfold Number.toJson
  split
  · split <;> rfl
  · rfl

/-- Fields stand only where a path leads to an object, and then they are those of the object. -/
theorem Renders.exists_of_obj {h : Heap} {passed : List ObjectId} {value : Value}
    {fields : List (String × Json)} (renders : h.Renders passed value (.obj fields)) :
    ∃ id, value = .object id ∧ fields.map Prod.fst = (h.properties id).map Prod.fst := by
  generalize given : Json.obj fields = data at renders
  cases renders with
  | object _ keys =>
    obtain rfl := Json.obj.inj given
    exact ⟨_, rfl, keys⟩
  | num x => exact absurd given.symm (toJson_ne_obj x fields)
  | _ => exact nomatch given

/-- **The data of a value have a path exactly if it passes through pairwise different objects, none
of which was open before.**  The data at its end are those of the value at its end, with all these
objects open. -/
theorem Unfolds.follow?_eq_some_iff {h : Heap} {opened : List ObjectId} {value : Value}
    {data : Json} (unfolds : h.Unfolds opened value data) (path : List String) (found : Json) :
    data.follow? path = some found ↔
      ∃ ids last, h.Follows value path ids last ∧ ids.Nodup ∧ (∀ id ∈ ids, id ∉ opened) ∧
        h.Unfolds (ids.reverse ++ opened) last found := by
  induction path generalizing opened value data with
  | nil =>
    rw [Json.follow?, Option.some.injEq]
    constructor
    · rintro rfl
      exact ⟨[], value, .here value, List.nodup_nil, by simp, by simpa using unfolds⟩
    · rintro ⟨_, _, ⟨⟩, -, -, ended⟩
      exact unfolds.unique (by simpa using ended)
  | cons key path ih =>
    cases unfolds with
    | circular mem =>
      constructor
      · intro followed
        simp [Json.follow?, Json.field?] at followed
      · rintro ⟨_, _, ⟨⟩, -, free, -⟩
        exact absurd mem (free _ List.mem_cons_self)
    | @object _ id fresh data each =>
      rw [Json.follow?, Json.field?, lookup_map_entries, getIn?_properties]
      cases held : h.held? id key with
      | none =>
        refine ⟨fun followed => by simp at followed, ?_⟩
        rintro ⟨_, _, follows, -⟩
        cases follows with
        | through other _ => exact nomatch held.symm.trans other
      | some next =>
        have inner := ih (each (key, next) (mem_properties_of_held? held))
        rw [Option.map_some, Option.bind_some, inner]
        constructor
        · rintro ⟨ids, last, follows, nodup, free, ended⟩
          refine ⟨id :: ids, last, .through held follows, ?_, ?_, by simpa using ended⟩
          · exact List.nodup_cons.mpr ⟨fun mem => free id mem List.mem_cons_self, nodup⟩
          · intro other mem
            rcases List.mem_cons.mp mem with rfl | mem
            · exact fresh
            · exact fun isOpen => free other mem (List.mem_cons_of_mem _ isOpen)
        · rintro ⟨_, last, follows, nodup, free, ended⟩
          cases follows with
          | through found' rest =>
            obtain rfl := Option.some.inj (held.symm.trans found')
            obtain ⟨fresh', nodup⟩ := List.nodup_cons.mp nodup
            refine ⟨_, last, rest, nodup, fun other mem isOpen => ?_, by simpa using ended⟩
            rcases List.mem_cons.mp isOpen with rfl | isOpen
            · exact fresh' mem
            · exact free other (List.mem_cons_of_mem _ mem) isOpen
    | num x =>
      refine ⟨fun followed => ?_, by rintro ⟨_, _, ⟨⟩, -⟩⟩
      simp [Json.follow?, field?_toJson] at followed
    | _ =>
      refine ⟨fun followed => ?_, by rintro ⟨_, _, ⟨⟩, -⟩⟩
      simp [Json.follow?, Json.field?] at followed

/-- A path leads to one value, through one list of objects. -/
theorem Follows.unique {h : Heap} {value last last' : Value} {path : List String}
    {ids ids' : List ObjectId} (follows : h.Follows value path ids last)
    (follows' : h.Follows value path ids' last') : ids = ids' ∧ last = last' := by
  induction follows generalizing ids' with
  | here _ =>
    cases follows'
    exact ⟨rfl, rfl⟩
  | through found _ ih =>
    cases follows' with
    | through found' rest' =>
      obtain rfl := Option.some.inj (found.symm.trans found')
      obtain ⟨rfl, rfl⟩ := ih rest'
      exact ⟨rfl, rfl⟩

/-- A path passes through objects of the heap, since no other reference has properties. -/
theorem Follows.lt_size {h : Heap} {value last : Value} {path : List String} {ids : List ObjectId}
    (follows : h.Follows value path ids last) : ∀ id ∈ ids, id < h.objects.size := by
  induction follows with
  | here _ => simp
  | @through id key _ _ _ _ found _ ih =>
    intro other mem
    rcases List.mem_cons.mp mem with rfl | mem
    · obtain ⟨object, there, -⟩ := Option.bind_eq_some_iff.mp found
      exact (Array.getElem?_eq_some_iff.mp there).1
    · exact ih other mem

/-- There are data at the end of a path that passes through pairwise different objects. -/
theorem Follows.exists_unfolds {h : Heap} {value last : Value} {path : List String}
    {ids : List ObjectId} (follows : h.Follows value path ids last) (nodup : ids.Nodup)
    (target : Value) : ∃ data, h.Unfolds (ids.reverse ++ []) target data := by
  refine ⟨h.unfold h.objects.size (ids.reverse ++ []) target,
    h.unfolds_unfold ?_ (fun id mem => ?_) ?_ target⟩
  · simpa using List.nodup_reverse.mpr nodup
  · exact follows.lt_size id (by simpa using mem)
  · exact Nat.le_add_right _ _

/-- A path may be continued by one key. -/
theorem Follows.snoc {h : Heap} {value held : Value} {path : List String} {ids : List ObjectId}
    {id : ObjectId} (follows : h.Follows value path ids (.object id)) {key : String}
    (found : h.held? id key = some held) : h.Follows value (path ++ [key]) (ids ++ [id]) held := by
  generalize last : Value.object id = object at follows
  induction follows with
  | here _ =>
    subst last
    exact .through found (.here held)
  | through first _ ih => exact .through first (ih last)

/-! ## What a snapshot depends on -/

/-- An unfolding stays one as long as the objects that are reachable stay the same. -/
theorem Unfolds.of_reaches {h h' : Heap} {opened : List ObjectId} {value : Value} {data : Json}
    (unfolds : h.Unfolds opened value data)
    (same : ∀ id, h.Reaches value id → h'.properties id = h.properties id) :
    h'.Unfolds opened value data := by
  induction unfolds with
  | circular mem => exact .circular mem
  | @object opened id fresh data each ih =>
    have here := same id (.here id)
    rw [← here]
    refine .object fresh fun property mem => ?_
    rw [here] at mem
    exact ih property mem fun other reached => same other (.along mem reached)
  | _ => constructor

/-- **Heaps that agree on the objects that are reachable from a value have the same snapshot of
it.** -/
theorem snapshot_eq_of_reaches {h h' : Heap} {value : Value}
    (same : ∀ id, h.Reaches value id → h'.properties id = h.properties id) :
    h'.snapshot value = h.snapshot value :=
  ((h.unfolds_snapshot value).of_reaches same).eq_snapshot.symm

/-! ## Heaps made by a run -/

/-- A heap that has come about by new objects, by writes to properties and by stored functions. -/
inductive Built : Heap → Prop
  | empty : Built {}
  | allocate {h : Heap} (built : Built h) : Built h.allocate
  | setProperty {h : Heap} (built : Built h) (id : ObjectId) (key : String) (value : Value) :
      Built (h.setProperty id key value)
  | storeFunction {h : Heap} (built : Built h) (name : String) (id : FunctionId) :
      Built (h.storeFunction name id)

/-- No object of such a heap has a key twice. -/
theorem Built.nodup_keys {h : Heap} (built : h.Built) {id : ObjectId} {object : Object}
    (there : h.object? id = some object) : object.keys.Nodup := by
  induction built generalizing id object with
  | empty => simp [object?] at there
  | allocate _ ih =>
    rw [object?_allocate] at there
    split at there
    · rw [← Option.some.inj there]
      exact List.nodup_nil
    · exact ih there
  | setProperty _ other key value ih =>
    rw [object?_setProperty] at there
    split at there
    · obtain ⟨old, was, rfl⟩ := Option.map_eq_some_iff.mp there
      have nodup := ih was
      rw [Table.keys_put]
      split
      · exact nodup
      · rename_i new
        exact List.nodup_append_comm.mp (List.nodup_cons.mpr ⟨new, nodup⟩)
    · exact ih there
  | storeFunction _ _ _ ih => exact ih there

theorem Built.nodup_properties {h : Heap} (built : h.Built) (id : ObjectId) :
    ((h.properties id).map Prod.fst).Nodup := by
  rw [properties]
  cases there : h.object? id with
  | none => exact List.nodup_nil
  | some object => exact built.nodup_keys there

end Heap

/-! ## The snapshot, path by path -/

/-- **A snapshot is the heap, unfolded along paths.**  Let the heap be any, with cycles, with shared
objects and with references to no object, which count as objects without properties.

The unfolding of a value ends, and the snapshot is its only result.  The snapshot has a path of keys
exactly if the path can be followed from the value and passes through pairwise different objects;
and what stands at its end is the mark of a circle if the path leads back to an object that it has
passed through, data with exactly the keys of the object if it leads to any other object, and
otherwise the data of a plain value.  No key of these data stands twice, if the heap was made by a
run.  Two properties of one object that share an object have the same data, in which the shared
object is unfolded, unless the path to it has passed through it.  Another heap that agrees on the
objects that are reachable from the value has the same snapshot. -/
theorem snapshot_unfolds_paths (h : Heap) (value : Value) :
    (∀ data, h.Unfolds [] value data ↔ data = h.snapshot value) ∧
    (∀ path, ((h.snapshot value).follow? path).isSome = true ↔
      ∃ ids last, h.Follows value path ids last ∧ ids.Nodup) ∧
    (∀ path found ids last, (h.snapshot value).follow? path = some found →
      h.Follows value path ids last → h.Renders ids last found) ∧
    (h.Built → ∀ path fields, (h.snapshot value).follow? path = some (.obj fields) →
      (fields.map Prod.fst).Nodup) ∧
    (∀ path ids id key key' shared, h.Follows value path ids (.object id) → (ids ++ [id]).Nodup →
      h.held? id key = some (.object shared) → h.held? id key' = some (.object shared) →
      shared ∉ ids ++ [id] →
        ∃ fields, (h.snapshot value).follow? (path ++ [key]) = some (.obj fields) ∧
          (h.snapshot value).follow? (path ++ [key']) = some (.obj fields) ∧
          fields.map Prod.fst = (h.properties shared).map Prod.fst) ∧
    ∀ h' : Heap, (∀ id, h.Reaches value id → h'.properties id = h.properties id) →
      h'.snapshot value = h.snapshot value := by
  have unfolds := h.unfolds_snapshot value
  have followed := unfolds.follow?_eq_some_iff
  have ends : ∀ {ids : List ObjectId} {last : Value} {found : Json},
      h.Unfolds (ids.reverse ++ []) last found → h.Renders ids last found :=
    fun ended => ended.renders (by simp)
  have renders : ∀ path found ids last, (h.snapshot value).follow? path = some found →
      h.Follows value path ids last → h.Renders ids last found := by
    intro path found ids last there follows
    obtain ⟨ids', last', follows', -, -, ended⟩ := (followed path found).mp there
    obtain ⟨rfl, rfl⟩ := follows.unique follows'
    exact ends ended
  refine ⟨fun data => ⟨fun other => other.eq_snapshot, fun same => same ▸ unfolds⟩, ?_, renders, ?_,
    ?_, fun h' => Heap.snapshot_eq_of_reaches⟩
  · intro path
    rw [Option.isSome_iff_exists]
    constructor
    · rintro ⟨found, there⟩
      obtain ⟨ids, last, follows, nodup, -, -⟩ := (followed path found).mp there
      exact ⟨ids, last, follows, nodup⟩
    · rintro ⟨ids, last, follows, nodup⟩
      obtain ⟨found, ended⟩ := follows.exists_unfolds nodup last
      exact ⟨found, (followed path found).mpr ⟨ids, last, follows, nodup, by simp, ended⟩⟩
  · intro built path fields there
    obtain ⟨ids, last, follows, -, -, ended⟩ := (followed path _).mp there
    obtain ⟨id, -, keys⟩ := (ends ended).exists_of_obj
    rw [keys]
    exact built.nodup_properties id
  · intro path ids id key key' shared follows nodup held held' fresh
    have first := follows.snoc held
    have second := follows.snoc held'
    -- the data depend on the objects on the way, which are the same for both keys
    obtain ⟨found, ended⟩ := first.exists_unfolds nodup (.object shared)
    have there := (followed _ found).mpr ⟨_, _, first, nodup, by simp, ended⟩
    have there' := (followed _ found).mpr ⟨_, _, second, nodup, by simp, ended⟩
    cases ends ended with
    | circular mem => exact absurd mem fresh
    | object _ keys => exact ⟨_, there, there', keys⟩

/-- A shared object, a reference back and a reference to no object. -/
example :
    Heap.snapshot
      { objects := #[⟨[("a", .object 1), ("b", .object 1), ("c", .object 7)]⟩,
          ⟨[("up", .object 0), ("n", .null)]⟩] } (.object 0) =
      .obj [("a", .obj [("up", .str "[Circular]"), ("n", .null)]),
        ("b", .obj [("up", .str "[Circular]"), ("n", .null)]), ("c", .obj [])] := by
  rfl

end ScriptTrace
