import ScriptTrace.Proofs.Purity

/-!
# Cycles need an assignment to a property

Objects refer to each other through their properties.  An object literal writes the properties of
its own object only, and at that time the object is fresh: nothing that is written leads to it
(`Machine.Fresh`).  So a literal closes no cycle, and the only other writes to properties are
assignments.  A program without them has acyclic heaps all along.

The numbers of objects are of no help here.  The object of a literal is made before the objects of
the literals inside it, which it refers to, and after those that it gets from variables.  What does
help is to say that a heap that differs from an acyclic one in a single object is acyclic again,
unless that object lies on a cycle (`Heap.Acyclic.of_properties_eq`).

In an acyclic heap a value may be unfolded without looking at the objects that are open.  The data
are then given by a relation that does not know of circles (`Heap.Expands`), and a value from which
a circle can be reached has no such data at all.

* `Heap.Acyclic`: no property of an object leads back to it.
* `Heap.Expands`: the data of a value, where nothing is cut off.
* `Heap.Opens`: the values that are met while a value is unfolded, with the open objects.
* `acyclic_of_assignsMember_eq_false`: a run without assignments to properties makes no cycle.
-/

namespace ScriptTrace

/-! ## Acyclic heaps -/

namespace Heap

variable {h h' : Heap} {value : Value} {id target : ObjectId}

/-- From no property of an object a chain of properties leads back to the object. -/
def Acyclic (h : Heap) : Prop :=
  ∀ id, ∀ entry ∈ h.properties id, ¬ h.Reaches entry.2 id

theorem Reaches.trans {entry : String × Value} (reached : h.Reaches value id)
    (mem : entry ∈ h.properties id) (further : h.Reaches entry.2 target) :
    h.Reaches value target := by
  induction reached with
  | here id => exact .along mem further
  | along first _ ih => exact .along first (ih mem)

/-- Where two heaps agree on all objects but one, a chain of properties is a chain of the other heap
or passes through that object. -/
theorem Reaches.or_through (same : ∀ other, other ≠ id → h'.properties other = h.properties other)
    (reached : h'.Reaches value target) :
    h.Reaches value target ∨
      h'.Reaches value id ∧
        (target = id ∨ ∃ entry ∈ h'.properties id, h'.Reaches entry.2 target) := by
  induction reached with
  | here other => exact .inl (.here other)
  | @along first target entry mem rest ih =>
    by_cases there : first = id
    · subst there
      exact .inr ⟨.here first, .inr ⟨entry, mem, rest⟩⟩
    · rcases ih with old | ⟨before, after⟩
      · exact .inl (.along (same first there ▸ mem) old)
      · exact .inr ⟨.along mem before, after⟩

/-- **A heap that differs from an acyclic one in a single object is acyclic, unless that object lies
on a cycle.** -/
theorem Acyclic.of_properties_eq (acyclic : h.Acyclic)
    (same : ∀ other, other ≠ id → h'.properties other = h.properties other)
    (unreached : ∀ entry ∈ h'.properties id, ¬ h'.Reaches entry.2 id) : h'.Acyclic := by
  intro other entry mem reached
  by_cases there : other = id
  · subst there
    exact unreached entry mem reached
  · rcases reached.or_through same with old | ⟨before, rfl | ⟨entry', mem', after⟩⟩
    · exact acyclic other entry (same other there ▸ mem) old
    · exact there rfl
    · -- the cycle goes through the object that differs, so it may be entered there
      exact unreached entry' mem' (after.trans mem before)

/-- What else changes in a heap does not matter. -/
theorem Acyclic.congr (acyclic : h.Acyclic) (same : ∀ id, h'.properties id = h.properties id) :
    h'.Acyclic := by
  intro id entry mem reached
  rw [same] at mem
  exact acyclic id entry mem (reached.of_properties_eq fun other _ => same other)

/-! ## Unfolding without circles -/

/-- The data of a value, where every reference is unfolded and none is cut off. -/
inductive Expands (h : Heap) : Value → Json → Prop
  | undefined : Expands h .undefined .null
  | null : Expands h .null .null
  | bool (b : Bool) : Expands h (.bool b) (.bool b)
  | str (s : String) : Expands h (.str s) (.str s)
  | num (x : Number) : Expands h (.num x) x.toJson
  | function (name : String) : Expands h (.function name) (.str (Value.function name).text)
  | object {id : ObjectId} {data : String × Value → Json}
      (each : ∀ property ∈ h.properties id, Expands h property.2 (data property)) :
      Expands h (.object id) (.obj ((h.properties id).map fun property =>
        (property.1, data property)))

/-- While a value is unfolded, another value is met below some open objects, the innermost first. -/
inductive Opens (h : Heap) (value : Value) : List ObjectId → Value → Prop
  | here : Opens h value [] value
  | inside {opened : List ObjectId} {id : ObjectId} {property : String × Value}
      (outer : Opens h value opened (.object id)) (fresh : id ∉ opened)
      (mem : property ∈ h.properties id) : Opens h value (id :: opened) property.2

/-- In an acyclic heap nothing leads from the properties of an object to it, nor to what it was
opened from. -/
theorem Acyclic.not_reaches_of_cons (acyclic : h.Acyclic) {opened : List ObjectId}
    (unreached : ∀ other ∈ opened, ¬ h.Reaches (.object id) other) {property : String × Value}
    (mem : property ∈ h.properties id) : ∀ other ∈ id :: opened, ¬ h.Reaches property.2 other := by
  intro other isOpen reached
  rcases List.mem_cons.mp isOpen with rfl | isOpen
  · exact acyclic other property mem reached
  · exact unreached other isOpen (.along mem reached)

theorem Opens.not_reaches (acyclic : h.Acyclic) {opened : List ObjectId} {inner : Value}
    (opens : h.Opens value opened inner) : ∀ other ∈ opened, ¬ h.Reaches inner other := by
  induction opens with
  | here => exact fun _ isOpen => nomatch isOpen
  | inside _ _ mem ih => exact acyclic.not_reaches_of_cons ih mem

/-- **In an acyclic heap no open object is met again.** -/
theorem Acyclic.not_mem_of_opens (acyclic : h.Acyclic) {opened : List ObjectId}
    (opens : h.Opens value opened (.object id)) : id ∉ opened :=
  fun isOpen => opens.not_reaches acyclic id isOpen (.here id)

/-- An unfolding cuts nothing off if no open object can be reached. -/
theorem Unfolds.expands (acyclic : h.Acyclic) {opened : List ObjectId} {data : Json}
    (unfolds : h.Unfolds opened value data)
    (unreached : ∀ other ∈ opened, ¬ h.Reaches value other) : h.Expands value data := by
  induction unfolds with
  | circular isOpen => exact absurd (.here _) (unreached _ isOpen)
  | object fresh each ih =>
    exact .object fun property mem => ih property mem (acyclic.not_reaches_of_cons unreached mem)
  | _ => constructor

/-- Whatever has data without cuts leads to no circle. -/
theorem Expands.not_reaches {data : Json} (expands : h.Expands value data)
    (reached : h.Reaches value target) :
    ∀ entry ∈ h.properties target, ¬ h.Reaches entry.2 target := by
  induction expands with
  | object _ ih =>
    cases reached with
    | here => exact fun entry mem round => ih entry mem round entry mem round
    | along mem rest => exact ih _ mem rest
  | _ => exact nomatch reached

/-- **A heap is acyclic exactly if its snapshots cut nothing off.** -/
theorem acyclic_iff_expands : h.Acyclic ↔ ∀ value, h.Expands value (h.snapshot value) := by
  constructor
  · exact fun acyclic value =>
      (h.unfolds_snapshot value).expands acyclic fun _ isOpen => nomatch isOpen
  · exact fun expands id => (expands (.object id)).not_reaches (.here id)

end Heap

/-! ## The heaps of a run -/

namespace Machine

variable {m : Machine} {value : Value} {id : ObjectId}

/-- No reference leads out of the heap, and none leads round in a circle. -/
structure Layered (m : Machine) : Prop where
  closed : m.Closed
  acyclic : m.heap.Acyclic

namespace Layered

theorem initial (config : Config) : (Machine.initial config).Layered where
  closed := .initial config
  acyclic id entry mem := by
    rw [Heap.properties_of_size_le (Nat.zero_le id)] at mem
    exact nomatch mem

theorem mute (layered : m.Layered) {effect : Effect} (mute : effect.isMute = true) :
    (effect.apply m).Layered where
  closed := layered.closed.mute mute
  acyclic := by
    cases effect with
    | bind _ _ | allocate | setProperty _ _ _ => exact nomatch mute
    | _ => exact layered.acyclic.congr fun _ => rfl

theorem bind (layered : m.Layered) (name : String) {binding : Binding}
    (owns : ∀ value, binding.value = some value → m.heap.Owns value) :
    ((Effect.bind name binding).apply m).Layered where
  closed := layered.closed.bind name owns
  acyclic := layered.acyclic

theorem allocate (layered : m.Layered) : (Effect.allocate.apply m).Layered where
  closed := layered.closed.fresh_allocate.closed
  acyclic := layered.acyclic.congr m.heap.properties_allocate

/-- A write to a fresh object closes no circle, if the value does not lead to the object. -/
theorem setProperty (layered : m.Layered) (fresh : m.Fresh id) (key : String)
    (owns : m.heap.Owns value) (unreached : ¬ m.heap.Reaches value id) :
    ((Effect.setProperty id key value).apply m).Layered where
  closed := layered.closed.setProperty id key owns
  acyclic := by
    refine layered.acyclic.of_properties_eq (fun other differs => ?_)
      (fresh.setProperty key owns unreached).not_reaches
    exact m.heap.properties_setProperty_of_ne key value differs.symm

end Layered

end Machine

mutual

/-- **Expressions close no circles.** -/
theorem meets_evaluate_layered : ∀ (e : Expression) {m : Machine}, m.Layered →
    (evaluate e).Meets Machine.Layered (fun _ _ => True) (fun _ _ => True) m
  | .literal _ _, m, layered => by
    rw [evaluate]
    exact .done layered trivial
  | .identifier name, m, layered => by
    rw [evaluate]
    exact .asksOrRaises layered (fun _ _ => trivial) fun _ _ => trivial
  | .object _ properties, m, layered => by
    rw [evaluate]
    refine .bind (.asks layered _) ?_
    rintro _ _ _ ⟨rfl, rfl⟩
    refine .bind (.perform layered layered.allocate) ?_
    rintro _ _ layered₁ rfl
    have fresh := layered.closed.fresh_allocate
    refine .bind (.record layered₁ (layered₁.mute rfl) fun _ => trivial) ?_
    rintro _ _ layered₂ rfl
    have filled := meets_fillObject_layered properties layered₂ (fresh.record _)
    have filled := filled.imp (fun _ => And.left) fun _ _ _ _ => trivial
    exact .bind filled fun _ _ layered₃ _ => .done layered₃ trivial
  | .member _ object property, m, layered => by
    rw [evaluate]
    refine .bind (meets_evaluate_layered object layered) fun _ _ layered₁ _ => ?_
    refine .bind (.record layered₁ (layered₁.mute rfl) fun _ => trivial) fun _ _ layered₂ _ => ?_
    exact .look (.done layered₂ trivial)
  | .array _ _, m, layered | .assignVariable _ _ _, m, layered
  | .assignMember _ _ _ _ _, m, layered | .call _ _ _, m, layered | .function _ _, m, layered
  | .unary _ _ _, m, layered | .binary _ _ _ _, m, layered => by
    simp only [evaluate]
    exact .done layered trivial

/-- The object of a literal stays fresh, so what is written to it does not lead to it. -/
theorem meets_fillObject_layered {id : ObjectId} :
    ∀ (properties : List (Property Expression)) {m : Machine}, m.Layered → m.Fresh id →
      (fillObject id properties).Meets (fun s => s.Layered ∧ s.Fresh id) (fun _ _ => True)
        (fun _ _ => True) m
  | [], m, layered, fresh => by
    rw [fillObject]
    exact .done ⟨layered, fresh⟩ trivial
  | ⟨_, .name key, e⟩ :: rest, m, layered, fresh => by
    rw [fillObject]
    refine .bind ((meets_evaluate_layered e layered).and (meets_evaluate_fresh e fresh)) ?_
    rintro value m₁ ⟨layered₁, fresh₁⟩ ⟨-, owns, unreached⟩
    have written := layered₁.setProperty fresh₁ key owns unreached
    have fresh₂ := fresh₁.setProperty key owns unreached
    refine .bind (.perform ⟨layered₁, fresh₁⟩ ⟨written, fresh₂⟩) ?_
    rintro _ m₂ both₂ -
    refine .bind (.asks both₂ _) ?_
    rintro shown _ _ ⟨-, rfl⟩
    refine .bind (.record both₂ ⟨both₂.1.mute rfl, both₂.2.record _⟩ fun _ => trivial) ?_
    rintro _ m₃ both₃ -
    exact meets_fillObject_layered rest both₃.1 both₃.2
  | ⟨_, .str _, _⟩ :: rest, m, layered, fresh | ⟨_, .num _, _⟩ :: rest, m, layered, fresh => by
    simp only [fillObject]
    exact meets_fillObject_layered rest layered fresh

end

/-- No value that is written without an assignment to a property closes a circle. -/
theorem valueRule_layered :
    ValueRule False Machine.Layered fun m value => m.heap.Owns value where
  evaluates e m layered := by
    have evaluated := (meets_evaluate_layered e layered).and
      (valueRule_closed.evaluates e m layered.closed)
    exact evaluated.imp (fun _ => And.left) fun _ _ _ => And.right
  plain m _ plain := m.heap.owns_of_objectId? plain
  stays _ effect m owns := owns.apply effect m
  mute _ _ isMute layered := layered.mute isMute
  binds name _ _ _ layered owns := layered.bind name owns
  assign never := never.elim

/-! ## Runs without assignments to properties -/

/-- **Cycles need an assignment to a property.**  Let no statement of a program, neither at the top
nor in the body of any of its functions, assign to a property.

In every state of every run, no chain of properties leads from an object back to it.  So while a
value is unfolded, no open object is met again, and the snapshot of every value cuts nothing off. -/
theorem acyclic_of_assignsMember_eq_false {program : Program}
    (none : ∀ s ∈ program.statements, s.assignsMember = false) {config : Config} {m : Machine}
    (reached : m ∈ (runScript config program).states (.initial config)) :
    m.heap.Acyclic ∧
      (∀ value opened id, m.heap.Opens value opened (.object id) → id ∉ opened) ∧
      ∀ value, m.heap.Expands value (m.heap.snapshot value) := by
  have may : ∀ s ∈ program.statements, s.assignsMember = true → False := fun s inside assigns =>
    Bool.false_ne_true ((none s inside).symm.trans assigns)
  have run : (runScript config program).Maintains Machine.Layered :=
    valueRule_layered.maintains_runScript may config
  have acyclic := ((run _ (.initial config)).always_of_mem m reached).acyclic
  exact ⟨acyclic, fun _ _ _ => acyclic.not_mem_of_opens, Heap.acyclic_iff_expands.mp acyclic⟩

/-- The script `var o = {}; var p = { first: o, second: { again: o } };`. -/
def nestsShared : Program where
  body :=
    [.variables ⟨⟨0, 0⟩, .varKind, [⟨⟨0, 0⟩, ⟨"o", ⟨0, 0⟩⟩, some (.object ⟨0, 0⟩ [])⟩]⟩,
      .variables ⟨⟨0, 0⟩, .varKind, [⟨⟨0, 0⟩, ⟨"p", ⟨0, 0⟩⟩, some (.object ⟨0, 0⟩
        [⟨⟨0, 0⟩, .name "first", .identifier ⟨"o", ⟨0, 0⟩⟩⟩,
          ⟨⟨0, 0⟩, .name "second", .object ⟨0, 0⟩
            [⟨⟨0, 0⟩, .name "again", .identifier ⟨"o", ⟨0, 0⟩⟩⟩]⟩])⟩]⟩]
  functions := #[]

/-- The object 1 of `p` refers to the objects 0 and 2, one of which was made before it and one
after it, and the snapshot shows the shared object twice. -/
theorem acyclic_nestsShared :
    let m := ((runScript {} nestsShared).run (.initial {})).2
    (∀ s ∈ nestsShared.statements, s.assignsMember = false) ∧
      m ∈ (runScript {} nestsShared).states (.initial {}) ∧
      m.heap.properties 1 = [("first", .object 0), ("second", .object 2)] ∧
      m.heap.Acyclic ∧
      m.heap.Expands (.object 1)
        (.obj [("first", .obj []), ("second", .obj [("again", .obj [])])]) := by
  intro m
  have none : ∀ s ∈ nestsShared.statements, s.assignsMember = false := by decide
  have last := (runScript {} nestsShared).run_mem_states (.initial {})
  obtain ⟨acyclic, -, expands⟩ := acyclic_of_assignsMember_eq_false none last
  exact ⟨none, last, by rfl, acyclic, expands (.object 1)⟩

/-- One assignment is enough for a circle: `var o = {}; o.self = o;`. -/
example :
    let m := ((runScript {} {
      body :=
        [.variables ⟨⟨0, 0⟩, .varKind, [⟨⟨0, 0⟩, ⟨"o", ⟨0, 0⟩⟩, some (.object ⟨0, 0⟩ [])⟩]⟩,
          .expression ⟨0, 0⟩ (.assignMember ⟨0, 0⟩ ⟨0, 0⟩ (.identifier ⟨"o", ⟨0, 0⟩⟩) ⟨"self", ⟨0, 0⟩⟩
            (.identifier ⟨"o", ⟨0, 0⟩⟩))]
      functions := #[] }).run (.initial {})).2
    m.heap.snapshot (.object 0) = .obj [("self", .str "[Circular]")] := by
  rfl

end ScriptTrace
