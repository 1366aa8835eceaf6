import ScriptTrace.Proofs.ReferenceFaults

/-!
# Where values go

A run writes values in two places, to bindings and to properties, and it gets them from one: the
evaluation of expressions.  So an invariant that speaks of the values in a state has to be followed
through expressions, but what statements do with the results is always the same.

A `ValueRule` is such an invariant, together with the values that are fit to be written.  Its parts
say what happens at one expression and at one write.  That the invariant then holds in every state
of a run is proved once for all rules (`ValueRule.maintains_runScript`).

A rule need not allow assignments to properties.  Then it is a rule for the programs without them.

* `Exec.Maintains`: an invariant of all states of an execution.
* `Machine.EachBinding`: what is true of all variables of all scopes.
* `ValueRule`: an invariant and the values that may be written.
* `ValueRule.maintains_runScript`: a rule holds for whole runs.
-/

namespace ScriptTrace

/-! ## Invariants of all states -/

namespace Exec

variable {α β : Type} {inv : Machine → Prop}

/-- From a state with the invariant, an execution passes through states with the invariant only. -/
def Maintains (inv : Machine → Prop) (x : Exec α) : Prop :=
  ∀ m : Machine, inv m → x.Meets inv (fun _ _ => True) (fun _ _ => True) m

namespace Maintains

theorem done (result : α) : (Exec.done result).Maintains inv :=
  fun _ here => .done here trivial

theorem raise (fault : Fault) : (Exec.raise fault : Exec α).Maintains inv :=
  fun _ here => .raise here trivial

theorem look {next : Machine → Exec α} (each : ∀ m, (next m).Maintains inv) :
    (Exec.look next).Maintains inv :=
  fun m here => .look (each m m here)

theorem asks (f : Machine → α) : (Exec.asks f).Maintains inv :=
  .look fun _ => .done _

theorem asksOrRaises (f : Machine → Except Fault α) : (Exec.asksOrRaises f).Maintains inv :=
  fun _ here => .asksOrRaises here (fun _ _ => trivial) fun _ _ => trivial

theorem perform {effect : Effect} (keeps : ∀ m, inv m → inv (effect.apply m)) :
    (Exec.perform effect).Maintains inv :=
  fun m here => (Meets.perform here (keeps m here)).mono fun _ _ _ => trivial

theorem record {event : Event} (keeps : ∀ m, inv m → inv ((Effect.record event).apply m)) :
    (ScriptTrace.record event).Maintains inv :=
  fun m here => (Meets.record here (keeps m here) fun _ => trivial).mono fun _ _ _ => trivial

theorem bind {x : Exec α} {next : α → Exec β} (first : x.Maintains inv)
    (each : ∀ a, (next a).Maintains inv) : (x >>= next).Maintains inv :=
  fun m here => .bind (first m here) fun a m' there _ => each a m' there

end Maintains

end Exec

/-! ## Rules for values -/

/-- A variable can be read exactly if it has a value. -/
def Binding.Consistent (binding : Binding) : Prop :=
  binding.initialized = binding.value.isSome

/-- Whether an effect writes no value and makes no object. -/
def Effect.isMute : Effect → Bool
  | .record _ | .storeFunction _ _ | .enter _ _ | .leave | .noteFault => true
  | .bind _ _ | .allocate | .setProperty _ _ _ => false

namespace Machine

/-- All variables of all scopes are of a kind. -/
def EachBinding (P : Binding → Prop) (m : Machine) : Prop :=
  ∀ id name binding, m.scopes.binding? name id = some binding → P binding

namespace EachBinding

variable {P : Binding → Prop} {m : Machine}

theorem initial (P : Binding → Prop) (config : Config) :
    (Machine.initial config).EachBinding P := by
  intro id name binding bound
  cases id with
  | zero => exact nomatch bound
  | succ _ => exact nomatch bound

theorem bind (each : m.EachBinding P) (name : String) {binding : Binding} (new : P binding) :
    ((Effect.bind name binding).apply m).EachBinding P := by
  intro id key other bound
  change (m.scopes.put m.currentScope name binding).binding? key id = some other at bound
  rw [Scopes.binding?_put] at bound
  split at bound
  · obtain ⟨scope, -, rfl⟩ := Option.map_eq_some_iff.mp bound
    exact new
  · exact each id key other bound

/-- A new scope has no variables yet. -/
theorem mute (each : m.EachBinding P) {effect : Effect} (mute : effect.isMute = true) :
    (effect.apply m).EachBinding P := by
  cases effect with
  | enter name function =>
    intro id key binding bound
    change (m.scopes.add name m.currentScope).binding? key id = some binding at bound
    rw [Scopes.binding?_add] at bound
    split at bound
    · exact nomatch bound
    · exact each id key binding bound
  | bind _ _ | allocate | setProperty _ _ _ => exact nomatch mute
  | _ => exact each

end EachBinding

end Machine

/-- Whether a statement assigns to a property. -/
def Statement.assignsMember : Statement → Bool
  | .expression _ (.assignMember _ _ _ _ _) => true
  | _ => false

/-- An invariant of states, with the values that may be written in a state.  If `assigns` fails, the
rule does not cover assignments to properties. -/
structure ValueRule (assigns : Prop) (inv : Machine → Prop) (fit : Machine → Value → Prop) :
    Prop where
  /-- Expressions keep the invariant, and their values may be written. -/
  evaluates : ∀ (e : Expression) (m : Machine), inv m →
    (evaluate e).Meets inv (fun _ _ => True) (fun value m' => fit m' value) m
  /-- Values that are no objects may always be written. -/
  plain : ∀ (m : Machine) (value : Value), value.objectId? = none → fit m value
  /-- What may be written once may be written later. -/
  stays : ∀ (value : Value) (effect : Effect) (m : Machine), fit m value →
    fit (effect.apply m) value
  mute : ∀ (effect : Effect) (m : Machine), effect.isMute = true → inv m → inv (effect.apply m)
  binds : ∀ (name : String) (binding : Binding) (m : Machine), binding.Consistent → inv m →
    (∀ value, binding.value = some value → fit m value) →
      inv ((Effect.bind name binding).apply m)
  assign : assigns → ∀ (id : ObjectId) (key : String) (value : Value) (m : Machine), inv m →
    fit m (.object id) → fit m value → inv ((Effect.setProperty id key value).apply m)

namespace ValueRule

open Exec

variable {assigns : Prop} {inv : Machine → Prop} {fit : Machine → Value → Prop}

section

variable (rule : ValueRule assigns inv fit)

include rule

theorem maintains_record (event : Event) : (record event).Maintains inv :=
  .record fun m => rule.mute _ m rfl

theorem maintains_evaluate (e : Expression) : (evaluate e).Maintains inv :=
  fun m here => (rule.evaluates e m here).mono fun _ _ _ => trivial

/-- A variable is bound that holds no object. -/
theorem maintains_bind {name : String} {binding : Binding} (consistent : binding.Consistent)
    (plain : ∀ value, binding.value = some value → value.objectId? = none) :
    (perform (.bind name binding)).Maintains inv :=
  .perform fun m here => rule.binds name binding m consistent here fun value held =>
    rule.plain m value (plain value held)

/-! ### Hoisting -/

theorem maintains_hoistFunction (name : String) (id : FunctionId) :
    (hoistFunction name id).Maintains inv := by
  rw [hoistFunction]
  refine .bind (rule.maintains_record _) fun _ => ?_
  refine .bind (.perform fun m => rule.mute _ m rfl) fun _ => ?_
  refine .bind (.asks _) fun scope => ?_
  refine .bind (rule.maintains_record _) fun _ => rule.maintains_bind rfl ?_
  rintro _ ⟨⟩
  rfl

theorem maintains_hoistVariables (kind : DeclarationKind) (declarators : List Declarator) :
    (hoistVariables kind declarators).Maintains inv := by
  induction declarators with
  | nil =>
    rw [hoistVariables]
    exact .done _
  | cons declarator rest ih =>
    rw [hoistVariables]
    refine .bind (.asks _) fun scope => ?_
    refine .bind (rule.maintains_record _) fun _ => ?_
    have consistent : kind.hoisted.Consistent := by cases kind <;> rfl
    refine .bind (rule.maintains_bind consistent fun value held => ?_) fun _ => ih
    cases kind with
    | varKind =>
      cases held
      rfl
    | letKind | constKind => cases held

theorem maintains_hoist (mode : HoistMode) (statements : List Statement) :
    (hoist mode statements).Maintains inv := by
  induction statements with
  | nil =>
    rw [hoist]
    exact .done _
  | cons statement rest ih =>
    cases statement with
    | functionDeclaration span name id =>
      rw [hoist]
      split
      · exact .bind (rule.maintains_hoistFunction name.name id) fun _ => ih
      · exact ih
    | «variables» declaration =>
      rw [hoist]
      exact .bind (rule.maintains_hoistVariables _ _) fun _ => ih
    | _ =>
      simp only [hoist]
      exact ih

/-! ### Statements -/

/-- A value is told and bound. -/
theorem meets_bindValue (name : String) {value : Value} (event : Shown → Event) {m : Machine}
    (here : inv m) (fits : fit m value) :
    (do
      let shown ← asks fun m => m.shown value
      record (event shown)
      perform (.bind name (.holding value))).Meets inv (fun _ _ => True) (fun _ _ => True) m := by
  refine .bind (.asks here _) ?_
  rintro shown _ _ ⟨-, rfl⟩
  refine .bind (.record here (rule.mute _ m rfl here) fun _ => trivial) ?_
  rintro _ _ there rfl
  have consistent : (Binding.holding value).Consistent := rfl
  refine (Meets.perform there (rule.binds _ _ _ consistent there ?_)).mono fun _ _ _ => trivial
  rintro _ ⟨⟩
  exact rule.stays value _ m fits

theorem maintains_declare (kind : DeclarationKind) (declarators : List Declarator) :
    (declare kind declarators).Maintains inv := by
  induction declarators with
  | nil =>
    rw [declare]
    exact .done _
  | cons declarator rest ih =>
    obtain ⟨_, name, init⟩ := declarator
    cases init with
    | none =>
      rw [declare]
      exact ih
    | some init =>
      intro m here
      rw [declare]
      refine .bind (rule.evaluates init m here) fun value m₁ there fits => ?_
      have bound := rule.meets_bindValue name.name (.initializeVariable kind name.name) there fits
      have all := bound.bind fun _ m₂ h₂ _ => ih m₂ h₂
      simpa only [bind_assoc] using all

theorem maintains_assignVariable (name : String) (right : Expression) :
    (assignVariable name right).Maintains inv := by
  intro m here
  rw [assignVariable]
  refine .bind (rule.evaluates right m here) fun value m₁ there fits => ?_
  exact rule.meets_bindValue name (.assignVariable name) there fits

/-- The value is in flight while the object is evaluated. -/
theorem maintains_assignProperty (may : assigns) (object : Expression) (property : String)
    (right : Expression) : (assignProperty object property right).Maintains inv := by
  intro m here
  rw [assignProperty]
  refine .bind (rule.evaluates right m here) fun value m₁ there fits => ?_
  refine .bind ((rule.evaluates object m₁ there).frame (rule.stays value) fits) ?_
  rintro base m₂ h₂ ⟨fitsBase, fits⟩
  split
  · rename_i id
    refine .bind (.asks h₂ _) ?_
    rintro shown _ _ ⟨-, rfl⟩
    refine .bind (.record h₂ (rule.mute _ m₂ rfl h₂) fun _ => trivial) ?_
    rintro _ _ h₃ rfl
    refine (Meets.perform h₃ (rule.assign may _ _ _ _ h₃ ?_ ?_)).mono fun _ _ _ => trivial
    · exact rule.stays _ _ m₂ fitsBase
    · exact rule.stays _ _ m₂ fits
  · exact .raise h₂ trivial

theorem maintains_callMethod (object : Expression) (method : String)
    (arguments : List Expression) : (callMethod object method arguments).Maintains inv := by
  rw [callMethod]
  refine .bind (rule.maintains_record _) fun _ => ?_
  refine .bind ?_ fun value => ?_
  · cases arguments with
    | nil => exact .done _
    | cons argument _ => exact rule.maintains_evaluate argument
  · exact .bind (.asks _) fun shown => rule.maintains_record _

theorem maintains_execute {call : String → Exec Unit} (each : ∀ name, (call name).Maintains inv)
    {s : Statement} (may : s.assignsMember = true → assigns) : (execute call s).Maintains inv := by
  unfold execute
  split
  · exact rule.maintains_declare _ _
  · unfold executeExpression
    split
    · exact rule.maintains_assignVariable _ _
    · exact rule.maintains_assignProperty (may rfl) _ _ _
    · exact rule.maintains_callMethod _ _ _
    · exact each _
    · exact .done _
  · exact .done _

theorem maintains_executeAll {call : String → Exec Unit} (each : ∀ name, (call name).Maintains inv)
    (statements : List Statement) (may : ∀ s ∈ statements, s.assignsMember = true → assigns) :
    (executeAll call statements).Maintains inv := by
  induction statements with
  | nil =>
    rw [executeAll]
    exact .done _
  | cons s rest ih =>
    rw [executeAll]
    obtain ⟨first, further⟩ := List.forall_mem_cons.mp may
    exact .bind (rule.maintains_execute each first) fun _ => ih further

/-! ### Calls -/

theorem maintains_inFrame (name : String) (id : FunctionId)
    {body : ScopeId → ScopeId → Exec Unit}
    (each : ∀ scope outer, (body scope outer).Maintains inv) :
    (inFrame name id body).Maintains inv := by
  rw [inFrame]
  refine .bind (.asks _) fun depth => ?_
  refine .bind (rule.maintains_record _) fun _ => ?_
  refine .bind (.asks _) fun scope => ?_
  refine .bind (.asks _) fun outer => ?_
  refine .bind (.perform fun m => rule.mute _ m rfl) fun _ m here => ?_
  refine .attempt (each scope outer m here) ?_ ?_
  · intro _ m₁ h₁ _
    refine (Maintains.bind (.perform fun m => rule.mute _ m rfl) fun _ => ?_) m₁ h₁
    exact .bind (.asks _) fun depth => rule.maintains_record _
  · intro fault m₁ h₁
    refine .bind (.perform h₁ (rule.mute _ m₁ rfl h₁)) fun _ m₂ h₂ _ => ?_
    refine .bind (.perform h₂ (rule.mute _ m₂ rfl h₂)) fun _ m₃ h₃ _ => ?_
    exact .raise h₃ rfl

variable {program : Program} (may : ∀ s ∈ program.statements, s.assignsMember = true → assigns)

include may

theorem maintains_runBody {call : String → Exec Unit} (each : ∀ name, (call name).Maintains inv)
    (name : String) (id : FunctionId) (scope outer : ScopeId) :
    (runBody program call name id scope outer).Maintains inv := by
  rw [runBody]
  refine .bind (rule.maintains_record _) fun _ => ?_
  cases there : program.function? id with
  | none => exact .raise _
  | some definition =>
    refine .bind (rule.maintains_hoist _ _) fun _ => rule.maintains_executeAll each _ ?_
    exact fun s inside => may s (Program.mem_statements_of_function? there inside)

/-- The induction is on the allowance, which the calls inside the body have one less of. -/
theorem maintains_callFunction (limit allowance : Nat) (name : String) :
    (callFunction program limit allowance name).Maintains inv := by
  induction allowance generalizing name with
  | zero =>
    rw [callFunction]
    refine .bind (rule.maintains_record _) fun _ => ?_
    exact .bind (.asksOrRaises _) fun id => .raise _
  | succ allowance ih =>
    rw [callFunction]
    refine .bind (rule.maintains_record _) fun _ => ?_
    refine .bind (.asksOrRaises _) fun id => ?_
    exact rule.maintains_inFrame name id (rule.maintains_runBody may ih name id)

theorem maintains_executeStatements (limit : Nat) {statements : List Statement}
    (inside : ∀ s ∈ statements, s ∈ program.statements) :
    (executeStatements program limit statements).Maintains inv := by
  induction statements with
  | nil =>
    rw [executeStatements]
    exact .done _
  | cons s rest ih =>
    rw [executeStatements]
    obtain ⟨first, further⟩ := List.forall_mem_cons.mp inside
    refine .bind (.look fun m => ?_) fun _ => ih further
    exact rule.maintains_execute (rule.maintains_callFunction may limit _) (may s first)

/-- **What single expressions and single writes keep, every state of a run has.** -/
theorem maintains_runScript (config : Config) : (runScript config program).Maintains inv := by
  rw [runScript]
  refine .bind (rule.maintains_record _) fun _ => ?_
  refine .bind (rule.maintains_hoist _ _) fun _ => ?_
  exact rule.maintains_executeStatements may _ fun s mem => List.mem_append_left _ mem

end

end ValueRule

end ScriptTrace
