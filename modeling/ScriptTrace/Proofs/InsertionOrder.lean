import Mathlib.Data.List.Basic
import Mathlib.Data.List.Induction
import ScriptTrace.Machine.Heap
import ScriptTrace.Machine.Scope

/-!
# Last writes, in the order of the first ones

The properties of an object and the bindings of a scope are tables: lists of entries, which are
searched from the front and overwritten in place.  What a list of writes leaves in a table without
names is said here by the list of writes alone.  The names are those that were written to, each of
them once; they stand in the order of the first writes to them; and under each name is the value of
the last write to it (`Table.Remembers`).  One more write keeps this (`Table.Remembers.put`), and so
does a list of writes (`Table.remembers_putAll`).

Writes to two different names commute as soon as one of the names is there (`Table.put_comm`).  If
neither is there, each of them goes to the end, and the order of the writes is the order of the
names.

A scope tells a name that it binds from one that it does not.  An object does not always: a property
that is not there reads as `undefined`, and so does one that was given this value.

* `firstWrite`, `IsLastWrite`: the first and the last write to a name, in a list of writes.
* `Table.putAll`, `Heap.setProperties`, `Scopes.putAll`: lists of writes.
* `fresh_tables_remember_writes`: what they leave in an object without properties and in a scope
  without bindings.
-/

namespace ScriptTrace

/-! ## Lists of writes -/

namespace Table

variable {α : Type}

/-- The table after a list of writes. -/
def putAll (t : Table α) (entries : List (String × α)) : Table α :=
  entries.foldl (fun t entry => t.put entry.1 entry.2) t

/-- A name has the value of the last write to it, or else the one that it had before. -/
theorem get?_putAll (t : Table α) (entries : List (String × α)) (key : String) :
    (t.putAll entries).get? key = (entries.reverse.lookup key).or (t.get? key) := by
  induction entries generalizing t with
  | nil => rfl
  | cons entry rest ih =>
    obtain ⟨k, v⟩ := entry
    have next : t.putAll ((k, v) :: rest) = (t.put k v).putAll rest := rfl
    rw [next, ih, get?_put, List.reverse_cons, List.lookup_append, Option.or_assoc]
    by_cases same : k = key
    · simp [same]
    · have differs : (key == k) = false := by simpa using Ne.symm same
      simp [List.lookup_cons, same, differs]

/-- The names that were there come first, and the new ones stand in the order of the first writes to
them. -/
theorem keys_putAll (t : Table α) (entries : List (String × α)) :
    (t.putAll entries).keys =
      t.keys ++ ((entries.map Prod.fst).filter fun key => key ∉ t.keys).eraseDups := by
  induction entries generalizing t with
  | nil => simp [putAll]
  | cons entry rest ih =>
    obtain ⟨k, v⟩ := entry
    have next : t.putAll ((k, v) :: rest) = (t.put k v).putAll rest := rfl
    rw [next, ih, keys_put]
    by_cases old : k ∈ t.keys
    · simp [old]
    · simp only [old, if_false, List.map_cons, List.filter_cons, not_false_eq_true, decide_true,
        if_true, List.eraseDups_cons, List.append_assoc, List.singleton_append, List.filter_filter]
      congr 3
      refine List.filter_congr fun key _ => ?_
      by_cases same : key = k <;> simp [same]

end Table

namespace Heap

/-- The heap after a list of writes to the properties of one object. -/
def setProperties (h : Heap) (id : ObjectId) (writes : List (String × Value)) : Heap :=
  writes.foldl (fun h write => h.setProperty id write.1 write.2) h

theorem object?_setProperties {h : Heap} {id : ObjectId} {object : Object}
    (there : h.object? id = some object) (writes : List (String × Value)) :
    (h.setProperties id writes).object? id = some (object.putAll writes) := by
  induction writes generalizing h object with
  | nil => exact there
  | cons write rest ih =>
    have next : (h.setProperty id write.1 write.2).object? id =
        some (object.put write.1 write.2) := by
      rw [object?_setProperty, if_pos rfl, there, Option.map_some]
    exact ih next

end Heap

namespace Scopes

/-- The scopes after a list of names has been bound in one of them. -/
def putAll (s : Scopes) (id : ScopeId) (entries : List (String × Binding)) : Scopes :=
  entries.foldl (fun s entry => s.put id entry.1 entry.2) s

theorem putAll_append (s : Scopes) (id : ScopeId) (first further : List (String × Binding)) :
    s.putAll id (first ++ further) = (s.putAll id first).putAll id further :=
  List.foldl_append

theorem get?_putAll (s : Scopes) (id : ScopeId) (entries : List (String × Binding))
    (other : ScopeId) :
    (s.putAll id entries).get? other =
      if id = other then
        (s.get? other).map fun r => { r with bindings := r.bindings.putAll entries }
      else s.get? other := by
  induction entries generalizing s with
  | nil => cases here : s.get? other <;> simp [putAll, Table.putAll, here]
  | cons entry rest ih =>
    have next : s.putAll id (entry :: rest) = (s.put id entry.1 entry.2).putAll id rest := rfl
    rw [next, ih, get?_put]
    by_cases same : id = other
    · simp only [same, if_true, Option.map_map]
      rfl
    · simp [same]

end Scopes

/-! ## First and last writes -/

section Writes

variable {α : Type}

/-- The place of the first write to a name. -/
def firstWrite (writes : List (String × α)) (key : String) : Nat :=
  (writes.map Prod.fst).idxOf key

/-- The last write to a name gives it a value: all writes after it are to other names. -/
def IsLastWrite (writes : List (String × α)) (key : String) (value : α) : Prop :=
  ∃ before after, writes = before ++ (key, value) :: after ∧ key ∉ after.map Prod.fst

variable {writes : List (String × α)} {k key : String} {v value : α}

theorem firstWrite_lt_length (there : key ∈ writes.map Prod.fst) :
    firstWrite writes key < writes.length := by
  have inside := List.idxOf_lt_length_of_mem there
  rwa [List.length_map] at inside

/-- One more write is not the first one to a name that was written to before. -/
theorem firstWrite_concat_of_mem (there : key ∈ writes.map Prod.fst) :
    firstWrite (writes ++ [(k, v)]) key = firstWrite writes key := by
  rw [firstWrite, List.map_append, List.idxOf_append_of_mem there, firstWrite]

/-- One more write is the first one to a new name. -/
theorem firstWrite_concat_of_notMem (new : key ∉ writes.map Prod.fst) :
    firstWrite (writes ++ [(key, v)]) key = writes.length := by
  rw [firstWrite, List.map_append, List.idxOf_append_of_notMem new, List.map_singleton,
    List.idxOf_cons_self, List.length_map, Nat.add_zero]

/-- One more write is the last one to its name. -/
theorem isLastWrite_concat_self : IsLastWrite (writes ++ [(key, v)]) key value ↔ v = value := by
  constructor
  · rintro ⟨before, after, parts, none⟩
    rcases List.eq_nil_or_concat after with rfl | ⟨after, last, rfl⟩
    · exact (Prod.mk.inj (List.cons.inj (List.append_inj' parts rfl).2).1).2
    · rw [List.concat_eq_append, ← List.cons_append, ← List.append_assoc] at parts
      obtain rfl := (List.cons.inj (List.append_inj' parts rfl).2).1
      simp at none
  · rintro rfl
    exact ⟨writes, [], rfl, List.not_mem_nil⟩

/-- One more write leaves the last writes to other names what they are. -/
theorem isLastWrite_concat_of_ne (ne : k ≠ key) :
    IsLastWrite (writes ++ [(k, v)]) key value ↔ IsLastWrite writes key value := by
  constructor
  · rintro ⟨before, after, parts, none⟩
    rcases List.eq_nil_or_concat after with rfl | ⟨after, last, rfl⟩
    · exact absurd (Prod.mk.inj (List.cons.inj (List.append_inj' parts rfl).2).1).1 ne
    · rw [List.concat_eq_append, ← List.cons_append, ← List.append_assoc] at parts
      refine ⟨before, after, (List.append_inj' parts rfl).1, fun there => none ?_⟩
      rw [List.concat_eq_append, List.map_append]
      exact List.mem_append_left _ there
  · rintro ⟨before, after, rfl, none⟩
    refine ⟨before, after ++ [(k, v)], by simp, ?_⟩
    simpa [ne.symm] using none

/-- The names with a last write are those with any write. -/
theorem exists_isLastWrite_iff :
    (∃ value, IsLastWrite writes key value) ↔ key ∈ writes.map Prod.fst := by
  induction writes using List.reverseRecOn with
  | nil => simp [IsLastWrite]
  | append_singleton writes write ih =>
    obtain ⟨k, v⟩ := write
    by_cases same : k = key
    · subst same
      simp [isLastWrite_concat_self]
    · simp only [isLastWrite_concat_of_ne same, ih, List.map_append, List.map_singleton,
        List.mem_append, List.mem_singleton, Ne.symm same, or_false]

end Writes

/-! ## What a table remembers -/

namespace Table

variable {α : Type} {t : Table α} {writes : List (String × α)}

/-- A table holds what a list of writes has left of itself. -/
structure Remembers (t : Table α) (writes : List (String × α)) : Prop where
  /-- The names are those written to. -/
  mem_keys : ∀ key, key ∈ t.keys ↔ key ∈ writes.map Prod.fst
  /-- They stand in the order of the first writes to them. -/
  ordered : t.keys.Pairwise fun key key' => firstWrite writes key < firstWrite writes key'
  /-- Under each name is the value of the last write to it. -/
  get?_eq_some_iff : ∀ key value, t.get? key = some value ↔ IsLastWrite writes key value

namespace Remembers

/-- No name stands twice. -/
theorem nodup_keys (h : t.Remembers writes) : t.keys.Nodup :=
  h.ordered.imp fun less => ne_of_apply_ne (firstWrite writes) (Nat.ne_of_lt less)

/-- Nothing is found under the names that were never written to, and under no others. -/
theorem get?_eq_none_iff (h : t.Remembers writes) (key : String) :
    t.get? key = none ↔ key ∉ writes.map Prod.fst := by
  rw [← exists_isLastWrite_iff, Option.eq_none_iff_forall_ne_some, not_exists]
  exact forall_congr' fun value => not_congr (h.get?_eq_some_iff key value)

theorem empty : (Table.empty : Table α).Remembers [] where
  mem_keys _ := Iff.rfl
  ordered := List.Pairwise.nil
  get?_eq_some_iff _ _ := by simp [IsLastWrite, Table.empty, Table.get?, getIn?]

/-- **One more write is remembered with those before it.** -/
theorem put (h : t.Remembers writes) (k : String) (v : α) :
    (t.put k v).Remembers (writes ++ [(k, v)]) where
  mem_keys key := by
    rw [keys_put, List.map_append, List.mem_append, ← h.mem_keys]
    split
    · rename_i there
      exact ⟨Or.inl, fun mem => mem.elim id fun new => List.mem_singleton.mp new ▸ there⟩
    · exact List.mem_append
  ordered := by
    have old : t.keys.Pairwise fun key key' =>
        firstWrite (writes ++ [(k, v)]) key < firstWrite (writes ++ [(k, v)]) key' := by
      refine h.ordered.imp_of_mem fun mem mem' less => ?_
      rwa [firstWrite_concat_of_mem ((h.mem_keys _).mp mem),
        firstWrite_concat_of_mem ((h.mem_keys _).mp mem')]
    rw [keys_put]
    split
    · exact old
    · rename_i new
      refine List.pairwise_append.mpr
        ⟨old, List.pairwise_singleton _ _, fun key mem key' last => ?_⟩
      obtain rfl := List.mem_singleton.mp last
      have there := (h.mem_keys key).mp mem
      rw [firstWrite_concat_of_mem there, firstWrite_concat_of_notMem (mt (h.mem_keys _).mpr new)]
      exact firstWrite_lt_length there
  get?_eq_some_iff key value := by
    rw [get?_put]
    split
    · rename_i same
      rw [same, isLastWrite_concat_self, Option.some_inj]
    · rename_i ne
      rw [isLastWrite_concat_of_ne ne, h.get?_eq_some_iff]

/-- A list of writes is remembered with those before it. -/
theorem putAll {before : List (String × α)} (h : t.Remembers before)
    (writes : List (String × α)) : (t.putAll writes).Remembers (before ++ writes) := by
  induction writes generalizing t before with
  | nil => rwa [List.append_nil]
  | cons write rest ih =>
    have next := ih (h.put write.1 write.2)
    rwa [List.append_assoc] at next

end Remembers

/-- **A table without names remembers the writes that are made to it.** -/
theorem remembers_putAll (writes : List (String × α)) :
    ((empty : Table α).putAll writes).Remembers writes :=
  Remembers.empty.putAll writes

/-- A second write to the first name changes its value and not its place. -/
example : (empty.putAll [("x", 1), ("y", 2), ("x", 3)]).entries = [("x", 3), ("y", 2)] := by
  decide

/-! ## Writes in either order -/

/-- Writes to two different names commute if one of the names is there. -/
theorem put_comm {k k' : String} (ne : k ≠ k') (there : k ∈ t.keys) (v v' : α) :
    (t.put k v).put k' v' = (t.put k' v').put k v := by
  obtain ⟨entries⟩ := t
  refine congrArg Table.mk ?_
  show putIn k' v' (putIn k v entries) = putIn k v (putIn k' v' entries)
  change k ∈ entries.map Prod.fst at there
  induction entries with
  | nil => exact absurd there List.not_mem_nil
  | cons entry rest ih =>
    obtain ⟨key, value⟩ := entry
    by_cases first : key = k
    · simp [putIn, first, ne]
    · by_cases second : key = k'
      · simp [putIn, second, ne.symm]
      · have further : k ∈ rest.map Prod.fst :=
          (List.mem_cons.mp there).resolve_left fun here => first here.symm
        simp [putIn, first, second, ih further]

end Table

theorem Heap.setProperty_comm {h : Heap} {id : ObjectId} {object : Object}
    (there : h.object? id = some object) {k k' : String} (ne : k ≠ k') (mem : k ∈ object.keys)
    (v v' : Value) :
    (h.setProperty id k v).setProperty id k' v' = (h.setProperty id k' v').setProperty id k v := by
  refine congrArg (Heap.mk h.functions) (Array.ext_getElem? fun other => ?_)
  show ((h.setProperty id k v).setProperty id k' v').object? other =
    ((h.setProperty id k' v').setProperty id k v).object? other
  simp only [object?_setProperty]
  split
  · rename_i same
    subst same
    simp only [there, Option.map_some, Table.put_comm ne mem]
  · rfl

theorem Scopes.put_comm {s : Scopes} {id : ScopeId} {scope : Scope}
    (there : s.get? id = some scope) {k k' : String} (ne : k ≠ k')
    (mem : k ∈ scope.bindings.keys) (b b' : Binding) :
    (s.put id k b).put id k' b' = (s.put id k' b').put id k b := by
  refine congrArg Scopes.mk (Array.ext_getElem? fun other => ?_)
  show ((s.put id k b).put id k' b').get? other = ((s.put id k' b').put id k b).get? other
  simp only [get?_put]
  split
  · rename_i same
    subst same
    simp only [there, Option.map_some, Table.put_comm ne mem]
  · rfl

/-! ## Objects and scopes -/

/-- A property reads as `undefined` if the object lacks it, and if the object has it with this
value. -/
theorem Heap.property_eq_undefined_iff {h : Heap} {id : ObjectId} {object : Object}
    (there : h.object? id = some object) (key : String) :
    h.property (.object id) key = .undefined ↔
      object.get? key = none ∨ object.get? key = some .undefined := by
  rw [property_of_object? there]
  cases object.get? key <;> simp

/-- **An object and a scope remember the last writes, in the order of the first ones.**  Let a list
of writes go to an object that has no properties, or to a scope that has no bindings.  Then the
names that it has are those that were written to, each of them once and in the order of the first
writes to them.  A name has the value of the last write to it.  In a scope it has none exactly if it
was never written to; in an object it reads as `undefined` exactly if it was never written to or the
last write gave it this value.  Writes to two different names commute from there on, if one of the
names has been written to. -/
theorem fresh_tables_remember_writes :
    (∀ (h : Heap) (id : ObjectId) (writes : List (String × Value)),
      h.object? id = some .empty →
      ∃ object, (h.setProperties id writes).object? id = some object ∧
        object.Remembers writes ∧ object.keys.Nodup ∧
        (∀ key value, IsLastWrite writes key value →
          (h.setProperties id writes).property (.object id) key = value) ∧
        (∀ key, (h.setProperties id writes).property (.object id) key = .undefined ↔
          key ∉ writes.map Prod.fst ∨ IsLastWrite writes key .undefined) ∧
        ∀ k k' v v', k ≠ k' → k ∈ object.keys →
          ((h.setProperties id writes).setProperty id k v).setProperty id k' v' =
            ((h.setProperties id writes).setProperty id k' v').setProperty id k v) ∧
    ∀ (s : Scopes) (id : ScopeId) (scope : Scope) (writes : List (String × Binding)),
      s.get? id = some scope → scope.bindings = .empty →
      ∃ scope', (s.putAll id writes).get? id = some scope' ∧
        scope'.bindings.Remembers writes ∧ scope'.bindings.keys.Nodup ∧
        (∀ name binding, (s.putAll id writes).binding? name id = some binding ↔
          IsLastWrite writes name binding) ∧
        (∀ name, (s.putAll id writes).binding? name id = none ↔ name ∉ writes.map Prod.fst) ∧
        ∀ k k' b b', k ≠ k' → k ∈ scope'.bindings.keys →
          ((s.putAll id writes).put id k b).put id k' b' =
            ((s.putAll id writes).put id k' b').put id k b := by
  constructor
  · intro h id writes fresh
    have there := Heap.object?_setProperties fresh writes
    have remembers := Table.remembers_putAll writes
    refine ⟨_, there, remembers, remembers.nodup_keys, fun key value last => ?_, fun key => ?_,
      fun k k' v v' ne mem => Heap.setProperty_comm there ne mem v v'⟩
    · rw [Heap.property_of_object? there, (remembers.get?_eq_some_iff key value).mpr last,
        Option.getD_some]
    · rw [Heap.property_eq_undefined_iff there, remembers.get?_eq_none_iff,
        remembers.get?_eq_some_iff]
  · intro s id scope writes here fresh
    have there := s.get?_putAll id writes id
    rw [if_pos rfl, here, Option.map_some, fresh] at there
    have remembers := Table.remembers_putAll writes
    have own : ∀ name,
        (s.putAll id writes).binding? name id = (Table.empty.putAll writes).get? name := by
      intro name
      rw [Scopes.binding?, there, Option.bind_some]
    refine ⟨_, there, remembers, remembers.nodup_keys, fun name binding => ?_, fun name => ?_,
      fun k k' b b' ne mem => Scopes.put_comm there ne mem b b'⟩
    · rw [own, remembers.get?_eq_some_iff]
    · rw [own, remembers.get?_eq_none_iff]

/-- A name that was written to twice has the second value, in the first object of a heap and in the
scope of a script. -/
theorem second_write_is_remembered :
    ((Heap.allocate {}).object? 0 = some .empty ∧
      ((Heap.allocate {}).setProperties 0
        [("x", .undefined), ("y", .null), ("x", .bool true)]).property (.object 0) "x" =
          .bool true) ∧
    (Scopes.initial "Global").get? globalScope = some ⟨"Global", none, .empty⟩ ∧
      ((Scopes.initial "Global").putAll globalScope
        [("x", .uninitialized), ("y", .holding .null), ("x", .holding (.bool true))]).binding? "x"
          globalScope = some (.holding (.bool true)) := by
  obtain ⟨ofObjects, ofScopes⟩ := fresh_tables_remember_writes
  obtain ⟨-, -, -, -, property, -, -⟩ := ofObjects (.allocate {}) 0
    [("x", .undefined), ("y", .null), ("x", .bool true)] rfl
  obtain ⟨-, -, -, -, binding, -, -⟩ := ofScopes (.initial "Global") globalScope _
    [("x", .uninitialized), ("y", .holding .null), ("x", .holding (.bool true))] rfl rfl
  exact ⟨⟨rfl, property "x" _ ⟨[("x", .undefined), ("y", .null)], [], rfl, List.not_mem_nil⟩⟩, rfl,
    (binding "x" _).mpr ⟨[("x", .uninitialized), ("y", .holding .null)], [], rfl,
      List.not_mem_nil⟩⟩

/-- **A property that was given the value `undefined` reads like one that was never written.** -/
theorem undefined_write_reads_as_missing :
    ¬(((Heap.allocate {}).setProperties 0 [("a", .undefined)]).property (.object 0) "a" =
        .undefined ↔
      "a" ∉ [("a", Value.undefined)].map Prod.fst) := by
  intro missing
  exact missing.mp rfl List.mem_cons_self

end ScriptTrace
