import ScriptTrace.Trace

/-!
# The scopes around the running frame are those of the call stack

Scopes are never removed, so the array of scopes holds those of all calls that have ever been made,
and a link of a scope is a bare index into that array.  Nothing in the array says which scopes
belong to calls that still run.  This file shows that the links do: the walk outwards from the scope
of the running frame visits the scopes of the frames on the stack, from the top to the bottom, and
no others.

## The invariant

`Machine.Linked` relates the array, the links and the stack.  Links go to smaller indices, and only
the scope of the script has none (`Scopes.WellLinked`); and the walk outwards from the running frame
is the list of the scopes on the stack (`Scopes.Walk`).  Every single effect keeps it, so it holds in
every state of every run (`Machine.linked_of_mem_states`).  A new frame puts its scope in front of
the walk, and a frame that is taken off takes the first scope of the walk away.

## What follows for names

The search for a name is a loop over links.  `Scopes.Resolves` is that loop with no bound on its
rounds; since links go to smaller indices, it ends from every scope, and `Scopes.resolve?` gives its
result (`Scopes.WellLinked.resolves_resolve?`).  From the running frame it is a search through the
frames of the stack, so a variable is read in the topmost frame that binds it
(`Machine.Linked.lookup_eq`).

* `scopeChain_eq_callStack`: all of this for every state of a run.
-/

namespace ScriptTrace

namespace Scopes

/-! ## Links -/

/-- The link of a scope; a scope without one has the link `none`. -/
def link? (s : Scopes) (id : ScopeId) : Option (Option ScopeId) :=
  (s.get? id).map Scope.outer

theorem link?_of_get? {s : Scopes} {id : ScopeId} {scope : Scope} (h : s.get? id = some scope) :
    s.link? id = some scope.outer := by
  rw [link?, h]
  rfl

/-- A binding leaves all links alone. -/
theorem link?_put (s : Scopes) (id : ScopeId) (name : String) (binding : Binding)
    (other : ScopeId) : (s.put id name binding).link? other = s.link? other := by
  rw [link?, link?, get?_put]
  split
  · rw [Option.map_map]
    rfl
  · rfl

theorem link?_add (s : Scopes) (name : String) (outer id : ScopeId) :
    (s.add name outer).link? id = if id = s.size then some (some outer) else s.link? id := by
  rw [link?, link?, get?_add]
  split <;> rfl

theorem lt_size_of_link? {s : Scopes} {id : ScopeId} {outer : Option ScopeId}
    (h : s.link? id = some outer) : id < s.size := by
  obtain ⟨scope, here, -⟩ := Option.map_eq_some_iff.mp h
  exact lt_size_of_get? here

/-- Links go to smaller indices, and the outermost scope is the only one without a link. -/
structure WellLinked (s : Scopes) : Prop where
  outer_lt : ∀ {id outer : ScopeId}, s.link? id = some (some outer) → outer < id
  eq_global : ∀ {id : ScopeId}, s.link? id = some none → id = globalScope
  link?_global : s.link? globalScope = some none

namespace WellLinked

variable {s : Scopes}

theorem initial (name : String) : (Scopes.initial name).WellLinked where
  outer_lt {id outer} h := by
    cases id with
    | zero => exact nomatch h
    | succ _ => exact nomatch h
  eq_global {id} h := by
    cases id with
    | zero => rfl
    | succ _ => exact nomatch h
  link?_global := rfl

theorem put (linked : s.WellLinked) (id : ScopeId) (name : String) (binding : Binding) :
    (s.put id name binding).WellLinked where
  outer_lt h := linked.outer_lt (s.link?_put id name binding _ ▸ h)
  eq_global h := linked.eq_global (s.link?_put id name binding _ ▸ h)
  link?_global := (s.link?_put id name binding _).trans linked.link?_global

theorem add (linked : s.WellLinked) (name : String) {outer : ScopeId} (inside : outer < s.size) :
    (s.add name outer).WellLinked where
  outer_lt {id o} h := by
    rw [link?_add] at h
    split at h
    · rename_i new
      rw [new, ← Option.some.inj (Option.some.inj h)]
      exact inside
    · exact linked.outer_lt h
  eq_global {id} h := by
    rw [link?_add] at h
    split at h
    · exact nomatch h
    · exact linked.eq_global h
  link?_global := by
    have old : globalScope ≠ s.size := Nat.ne_of_lt (lt_size_of_link? linked.link?_global)
    rw [link?_add, if_neg old]
    exact linked.link?_global

end WellLinked

/-! ## Walks outwards -/

/-- The walk outwards from a scope, link by link, up to a scope without a link. -/
inductive Walk (s : Scopes) : ScopeId → List ScopeId → Prop
  | last {id : ScopeId} (ends : s.link? id = some none) : Walk s id [id]
  | link {id outer : ScopeId} {ids : List ScopeId} (out : s.link? id = some (some outer))
      (rest : Walk s outer ids) : Walk s id (id :: ids)

namespace Walk

variable {s s' : Scopes} {start : ScopeId} {ids : List ScopeId}

/-- Scopes that keep their links keep their walks. -/
theorem of_link?_eq (walk : s.Walk start ids)
    (keeps : ∀ id < s.size, s'.link? id = s.link? id) : s'.Walk start ids := by
  induction walk with
  | last ends => exact .last ((keeps _ (lt_size_of_link? ends)).trans ends)
  | link out _ ih => exact .link ((keeps _ (lt_size_of_link? out)).trans out) ih

theorem put (walk : s.Walk start ids) (id : ScopeId) (name : String) (binding : Binding) :
    (s.put id name binding).Walk start ids :=
  walk.of_link?_eq fun other _ => s.link?_put id name binding other

/-- A new scope inside the first scope of a walk goes in front of the walk. -/
theorem add (walk : s.Walk start ids) (name : String) :
    (s.add name start).Walk s.size (s.size :: ids) := by
  have rest : (s.add name start).Walk start ids := by
    refine walk.of_link?_eq fun id inside => ?_
    rw [link?_add, if_neg (Nat.ne_of_lt inside)]
  refine .link ?_ rest
  rw [link?_add, if_pos rfl]

theorem start_lt_size (walk : s.Walk start ids) : start < s.size := by
  cases walk with
  | last ends => exact lt_size_of_link? ends
  | link out _ => exact lt_size_of_link? out

theorem head?_eq (walk : s.Walk start ids) : ids.head? = some start := by
  cases walk <;> rfl

/-- A walk without its first scope is the walk from the next one. -/
theorem tail {id next : ScopeId} (walk : s.Walk start (id :: next :: ids)) :
    s.Walk next (next :: ids) := by
  cases walk with
  | link _ rest =>
    have same := Option.some.inj rest.head?_eq
    rwa [← same] at rest

theorem le_start (walk : s.Walk start ids) (linked : s.WellLinked) : ∀ id ∈ ids, id ≤ start := by
  induction walk with
  | last _ => simp
  | link out _ ih =>
    intro id hid
    rcases List.mem_cons.mp hid with rfl | hid
    · exact Nat.le_refl _
    · exact Nat.le_trans (ih id hid) (Nat.le_of_lt (linked.outer_lt out))

/-- Indices go down along a walk. -/
theorem pairwise_gt (walk : s.Walk start ids) (linked : s.WellLinked) :
    ids.Pairwise (· > ·) := by
  induction walk with
  | last _ => exact List.pairwise_singleton _ _
  | link out rest ih =>
    refine List.pairwise_cons.mpr ⟨fun id hid => ?_, ih⟩
    exact Nat.lt_of_le_of_lt (rest.le_start linked id hid) (linked.outer_lt out)

/-- A walk ends at the outermost scope. -/
theorem getLast?_eq (walk : s.Walk start ids) (linked : s.WellLinked) :
    ids.getLast? = some globalScope := by
  induction walk with
  | last ends => rw [List.getLast?_singleton, linked.eq_global ends]
  | link _ _ ih =>
    rw [List.getLast?_cons, ih]
    rfl

end Walk

/-! ## The search for a name -/

/-- The search for a name from a scope outwards, and what it finds.  There is no bound on how far it
goes: a search that never ends finds nothing that could be derived here. -/
inductive Resolves (s : Scopes) (name : String) : ScopeId → Option (ScopeId × Binding) → Prop
  /-- There is no such scope. -/
  | missing {id : ScopeId} (nowhere : s.get? id = none) : Resolves s name id none
  /-- The scope binds the name. -/
  | found {id : ScopeId} {scope : Scope} {binding : Binding} (here : s.get? id = some scope)
      (bound : scope.bindings.get? name = some binding) : Resolves s name id (some (id, binding))
  /-- The scope does not bind the name, and there is no scope around it. -/
  | exhausted {id : ScopeId} {scope : Scope} (here : s.get? id = some scope)
      (unbound : scope.bindings.get? name = none) (ends : scope.outer = none) :
      Resolves s name id none
  /-- The scope does not bind the name, and the search goes on in the scope around it. -/
  | outward {id outer : ScopeId} {scope : Scope} {result : Option (ScopeId × Binding)}
      (here : s.get? id = some scope) (unbound : scope.bindings.get? name = none)
      (out : scope.outer = some outer) (rest : Resolves s name outer result) :
      Resolves s name id result

/-- The search finds at most one thing. -/
theorem Resolves.unique {s : Scopes} {name : String} {id : ScopeId}
    {first second : Option (ScopeId × Binding)} (h : s.Resolves name id first)
    (h' : s.Resolves name id second) : first = second := by
  induction h with
  | missing nowhere => cases h' <;> simp_all
  | found here bound => cases h' <;> simp_all
  | exhausted here unbound ends => cases h' <;> simp_all
  | outward here unbound out _ ih =>
    cases h' with
    | missing nowhere => simp_all
    | found here' bound => simp_all
    | exhausted here' _ ends => simp_all
    | outward here' _ out' rest =>
      refine ih ?_
      simp_all

/-- With room for `steps` scopes, the bounded search ends from every index below: each link uses up
one step and takes the index down by at least one. -/
theorem WellLinked.resolves_resolveWithin {s : Scopes} (linked : s.WellLinked) (name : String)
    {steps : Nat} {id : ScopeId} (room : id < steps) :
    s.Resolves name id (s.resolveWithin name steps id) := by
  induction steps generalizing id with
  | zero => exact absurd room (Nat.not_lt_zero id)
  | succ steps ih =>
    rw [resolveWithin]
    cases here : s.get? id with
    | none => exact .missing here
    | some scope =>
      cases bound : scope.bindings.get? name with
      | some binding =>
        simp only [bound]
        exact .found here bound
      | none =>
        simp only [bound]
        cases out : scope.outer with
        | none => exact .exhausted here bound out
        | some outer =>
          have lt : outer < id := linked.outer_lt (by rw [link?_of_get? here, out])
          exact .outward here bound out (ih (Nat.lt_of_lt_of_le lt (Nat.le_of_lt_succ room)))

/-- **The search for a name ends**, from every index, and `resolve?` gives what it finds. -/
theorem WellLinked.resolves_resolve? {s : Scopes} (linked : s.WellLinked) (start : ScopeId)
    (name : String) : s.Resolves name start (s.resolve? start name) := by
  by_cases room : start < s.size
  · exact linked.resolves_resolveWithin name room
  · have nowhere : s.get? start = none := Array.getElem?_eq_none (Nat.le_of_not_lt room)
    have nothing : s.resolve? start name = none := by
      rw [resolve?]
      cases s.size with
      | zero => rfl
      | succ _ => rw [resolveWithin, nowhere]
    rw [nothing]
    exact .missing nowhere

/-- The binding of a name that a scope holds itself, as a result of a search. -/
def own? (s : Scopes) (name : String) (id : ScopeId) : Option (ScopeId × Binding) :=
  (s.binding? name id).map fun binding => (id, binding)

/-- The search at one scope: its own binding comes before what is found further out. -/
theorem Resolves.findSome?_cons {s : Scopes} {name : String} {id : ScopeId} {scope : Scope}
    {ids : List ScopeId} (here : s.get? id = some scope)
    (further : scope.bindings.get? name = none →
      s.Resolves name id (ids.findSome? (s.own? name))) :
    s.Resolves name id ((id :: ids).findSome? (s.own? name)) := by
  have own : s.own? name id = (scope.bindings.get? name).map fun binding => (id, binding) := by
    rw [own?, binding?, here]
    rfl
  cases bound : scope.bindings.get? name with
  | some binding =>
    rw [List.findSome?_cons, own, bound]
    exact .found here bound
  | none =>
    rw [List.findSome?_cons, own, bound]
    exact further bound

/-- The search along a walk finds the binding of the first scope on it that has one. -/
theorem Walk.resolves {s : Scopes} {start : ScopeId} {ids : List ScopeId}
    (walk : s.Walk start ids) (name : String) :
    s.Resolves name start (ids.findSome? (s.own? name)) := by
  induction walk with
  | last ends =>
    obtain ⟨scope, here, ends⟩ := Option.map_eq_some_iff.mp ends
    exact .findSome?_cons here fun unbound => .exhausted here unbound ends
  | link out _ ih =>
    obtain ⟨scope, here, out⟩ := Option.map_eq_some_iff.mp out
    exact .findSome?_cons here fun unbound => .outward here unbound out ih

end Scopes

/-! ## The invariant -/

namespace Machine

/-- The scopes are well linked, and the walk outwards from the running frame visits the scopes of the
frames on the stack. -/
structure Linked (m : Machine) : Prop where
  wellLinked : m.scopes.WellLinked
  walk : m.scopes.Walk m.currentScope (m.stack.frames.map Frame.scope)

theorem Linked.frames_ne_nil {m : Machine} (h : m.Linked) : m.stack.frames ≠ [] := by
  intro nil
  have head := h.walk.head?_eq
  rw [nil] at head
  exact nomatch head

theorem linked_initial (config : Config) : (Machine.initial config).Linked where
  wellLinked := .initial config.globalFrameName
  walk := .last rfl

/-- The frame that is taken off takes the first scope of the walk away; the bottom frame stays. -/
theorem Linked.leave {m : Machine} (h : m.Linked) : (Effect.leave.apply m).Linked := by
  refine ⟨h.wellLinked, ?_⟩
  obtain ⟨recorder, heap, scopes, ⟨frames⟩, site⟩ := m
  match frames, h.walk with
  | [], walk => exact walk
  | [_], walk => exact walk
  | _ :: _ :: _, walk => exact walk.tail

/-- Every effect keeps the invariant. -/
theorem Linked.apply {m : Machine} (h : m.Linked) (effect : Effect) : (effect.apply m).Linked := by
  cases effect with
  | bind name binding =>
    exact ⟨h.wellLinked.put m.currentScope name binding, h.walk.put m.currentScope name binding⟩
  | enter name function =>
    exact ⟨h.wellLinked.add name h.walk.start_lt_size, h.walk.add name⟩
  | leave => exact h.leave
  | _ => exact ⟨h.wellLinked, h.walk⟩

/-- **The invariant holds in every state of every run.** -/
theorem linked_of_mem_states {config : Config} {program : Program} {m : Machine}
    (reached : m ∈ (runScript config program).states (.initial config)) : m.Linked :=
  Exec.forall_states_of_forall_effect (fun effect _ h => h.apply effect) _
    (linked_initial config) m reached

/-! ## Reading a variable -/

/-- The binding of a name in the topmost frame that has one. -/
def topmostBinding? (m : Machine) (name : String) : Option Binding :=
  m.stack.frames.findSome? fun frame => m.scopes.binding? name frame.scope

namespace Linked

variable {m : Machine}

/-- The search from the running frame is a search through the frames of the stack. -/
theorem resolve?_eq (h : m.Linked) (name : String) :
    (m.scopes.resolve? m.currentScope name).map Prod.snd = m.topmostBinding? name := by
  have found := (h.wellLinked.resolves_resolve? m.currentScope name).unique (h.walk.resolves name)
  have forget : (Option.map Prod.snd ∘ m.scopes.own? name) ∘ Frame.scope =
      fun frame => m.scopes.binding? name frame.scope := by
    funext frame
    show (m.scopes.own? name frame.scope).map Prod.snd = _
    rw [Scopes.own?, Option.map_map]
    exact congrFun Option.map_id _
  rw [found, topmostBinding?, List.map_findSome?, List.findSome?_map, forget]

/-- A variable is read in the topmost frame that binds it. -/
theorem lookup_eq (h : m.Linked) (name : String) :
    m.lookup name =
      match m.topmostBinding? name with
      | none => .error (.notDefined name)
      | some binding =>
        match binding.read? with
        | none => .error (.uninitialized name)
        | some value => .ok value := by
  rw [lookup, ← h.resolve?_eq name]
  rcases m.scopes.resolve? m.currentScope name with _ | ⟨_, binding⟩ <;> rfl

theorem lookup_eq_notDefined_iff (h : m.Linked) (name : String) :
    m.lookup name = .error (.notDefined name) ↔
      ∀ frame ∈ m.stack.frames, m.scopes.binding? name frame.scope = none := by
  rw [h.lookup_eq, ← List.findSome?_eq_none_iff, ← topmostBinding?]
  cases m.topmostBinding? name with
  | none => simp
  | some binding => cases readable : binding.read? <;> simp [readable]

theorem lookup_eq_uninitialized_iff (h : m.Linked) (name : String) :
    m.lookup name = .error (.uninitialized name) ↔
      ∃ binding, m.topmostBinding? name = some binding ∧ binding.initialized = false := by
  rw [h.lookup_eq]
  cases m.topmostBinding? name with
  | none => simp
  | some binding => cases initialized : binding.initialized <;> simp [Binding.read?, initialized]

theorem lookup_eq_ok_iff (h : m.Linked) (name : String) (value : Value) :
    m.lookup name = .ok value ↔
      ∃ binding, m.topmostBinding? name = some binding ∧ binding.initialized = true ∧
        binding.value.getD .undefined = value := by
  rw [h.lookup_eq]
  cases m.topmostBinding? name with
  | none => simp
  | some binding => cases initialized : binding.initialized <;> simp [Binding.read?, initialized]

end Linked

end Machine

/-! ## Every state of a run -/

/-- **The scopes around the running frame are those of the call stack.**  In every state of a run,
links go to smaller indices and only the outermost scope has none; the scopes of the frames count up
from the outermost one; and the walk outwards from the running frame visits them from the top of the
stack to the bottom.  So the search for a name always ends, and a variable is read in the topmost
frame that binds it. -/
theorem scopeChain_eq_callStack (config : Config) (program : Program) (m : Machine)
    (reached : m ∈ (runScript config program).states (.initial config)) :
    (∀ (id : ScopeId) (scope : Scope), m.scopes.get? id = some scope →
        (scope.outer = none ↔ id = globalScope) ∧
          ∀ outer, scope.outer = some outer → outer < id) ∧
      m.stack.scopes.head? = some globalScope ∧ m.stack.scopes.Pairwise (· < ·) ∧
      m.scopes.Walk m.currentScope m.stack.scopes.reverse ∧
      (∀ start name, m.scopes.Resolves name start (m.scopes.resolve? start name)) ∧
      ∀ name,
        (m.lookup name = .error (.notDefined name) ↔
          ∀ frame ∈ m.stack.frames, m.scopes.binding? name frame.scope = none) ∧
        (m.lookup name = .error (.uninitialized name) ↔
          ∃ binding, m.topmostBinding? name = some binding ∧ binding.initialized = false) ∧
        ∀ value, m.lookup name = .ok value ↔
          ∃ binding, m.topmostBinding? name = some binding ∧ binding.initialized = true ∧
            binding.value.getD .undefined = value := by
  have h := Machine.linked_of_mem_states reached
  have scopes : m.stack.scopes.reverse = m.stack.frames.map Frame.scope := by
    rw [Stack.scopes, ← List.map_reverse, List.reverse_reverse]
  have walk : m.scopes.Walk m.currentScope m.stack.scopes.reverse := scopes ▸ h.walk
  refine ⟨?_, ?_, ?_, walk, h.wellLinked.resolves_resolve?, fun name => ⟨?_, ?_, ?_⟩⟩
  · intro id scope here
    have link := Scopes.link?_of_get? here
    refine ⟨⟨fun none => ?_, fun global => ?_⟩, fun outer out => ?_⟩
    · exact h.wellLinked.eq_global (by rw [link, none])
    · rw [global, h.wellLinked.link?_global] at link
      exact (Option.some.inj link).symm
    · exact h.wellLinked.outer_lt (by rw [link, out])
  · have last := walk.getLast?_eq h.wellLinked
    rwa [List.getLast?_reverse] at last
  · have down := walk.pairwise_gt h.wellLinked
    rwa [List.pairwise_reverse] at down
  · exact h.lookup_eq_notDefined_iff name
  · exact h.lookup_eq_uninitialized_iff name
  · exact h.lookup_eq_ok_iff name

/-- A script whose function reads a variable of the script and assigns to one of its own:
`function f() { b = a; } var a = true; f();`. -/
def readingCall : Program where
  body :=
    [.functionDeclaration ⟨0, 0⟩ ⟨"f", ⟨0, 0⟩⟩ 0,
      .variables ⟨⟨0, 0⟩, .varKind, [⟨⟨0, 0⟩, ⟨"a", ⟨0, 0⟩⟩, some (.literal ⟨0, 0⟩ (.bool true))⟩]⟩,
      .expression ⟨0, 0⟩ (.call ⟨0, 0⟩ (.identifier ⟨"f", ⟨0, 0⟩⟩) [])]
  functions :=
    #[⟨⟨0, 0⟩, none, [], [.expression ⟨0, 0⟩
      (.assignVariable ⟨0, 0⟩ ⟨"b", ⟨0, 0⟩⟩ (.identifier ⟨"a", ⟨0, 0⟩⟩))]⟩]

/-- Inside the call of `readingCall` the walk goes from the scope of the call to that of the
script. -/
theorem scopeChain_inside_readingCall :
    ∃ m ∈ (runScript {} readingCall).states (.initial {}),
      m.stack.scopes = [0, 1] ∧ m.scopes.Walk m.currentScope [1, 0] := by
  obtain ⟨m, reached, inside⟩ : ∃ m ∈ (runScript {} readingCall).states (.initial {}),
      m.stack.scopes = [0, 1] := by decide
  obtain ⟨-, -, -, walk, -⟩ := scopeChain_eq_callStack {} readingCall m reached
  rw [inside] at walk
  exact ⟨m, reached, inside, walk⟩

end ScriptTrace
