import ScriptTrace.Proofs.Recasting
import ScriptTrace.Trace

/-!
# Inert code

Much of a script is never looked at when it runs: conditionals and loops, the arguments of a call of
a name, all arguments of a method call after the first, properties of an object literal whose key is
no plain name, parameters, and functions declared inside functions.  `Program.erase` deletes all of
it, and all stretches of source too; the functions keep their indices.

The trace of a program is the trace of what is left (`runProgram_erase`).

## How the two runs are compared

Expressions, declarations and statements of a function body do not only behave alike before and
after the erasure: they are the same executions.  So calls are the same executions as well, by
induction on the allowance (`callFunction_erase`), and no relation between states is needed.  Only
at the level of the script an erased statement leaves a trace in the execution, a look at the depth
of the stack with nothing after it; there the two executions have the same runs
(`run_executeStatements_erase`).

What is skipped when names are hoisted has to be skipped when statements run, and the other way
round.  The declaration of a function is where the two differ: it binds a name in a script and does
nothing in a function, so the erasure depends on where a statement stands.

## Offsets

A program with other offsets leaves the same after the erasure (`Program.erase_recast`).  So the
trace of a program does not depend on where in a source its parts stand (`runProgram_recast`).
-/

namespace ScriptTrace

/-! ## The erasure -/

/-- No stretch of source. -/
def Span.none : Span := ⟨0, 0⟩

/-- The name without its stretch. -/
def Identifier.erase (name : Identifier) : Identifier :=
  ⟨name.name, .none⟩

mutual

/-- An expression without stretches and without the properties whose key is no plain name. -/
def Expression.erase : Expression → Expression
  | .literal _ value => .literal .none value
  | .identifier name => .identifier name.erase
  | .object _ properties => .object .none (eraseProperties properties)
  | .array _ elements => .array .none (eraseExpressions elements)
  | .member _ base property => .member .none base.erase property.erase
  | .assignVariable _ target value => .assignVariable .none target.erase value.erase
  | .assignMember _ _ base property value =>
    .assignMember .none .none base.erase property.erase value.erase
  | .call _ callee arguments => .call .none callee.erase (eraseExpressions arguments)
  | .function _ id => .function .none id
  | .unary _ operator operand => .unary .none operator operand.erase
  | .binary _ operator left right => .binary .none operator left.erase right.erase

/-- The properties with a plain name for a key. -/
def eraseProperties : List (Property Expression) → List (Property Expression)
  | [] => []
  | ⟨_, .name key, value⟩ :: rest => ⟨.none, .name key, value.erase⟩ :: eraseProperties rest
  | ⟨_, .str _, _⟩ :: rest | ⟨_, .num _, _⟩ :: rest => eraseProperties rest

/-- Several expressions. -/
def eraseExpressions : List Expression → List Expression
  | [] => []
  | e :: rest => e.erase :: eraseExpressions rest

end

/-- A declared variable. -/
def Declarator.erase (d : Declarator) : Declarator :=
  ⟨.none, d.name.erase, d.init.map Expression.erase⟩

/-- What is left of an expression that stands as a statement.  A call keeps the arguments that are
evaluated: none if it calls a name, and the first one if it calls a method. -/
def Expression.eraseAsStatement? : Expression → Option Expression
  | .assignVariable _ target value => some (.assignVariable .none target.erase value.erase)
  | .assignMember _ _ base property value =>
    some (.assignMember .none .none base.erase property.erase value.erase)
  | .call _ (.member _ base method) arguments =>
    some (.call .none (.member .none base.erase method.erase) (eraseExpressions (arguments.take 1)))
  | .call _ (.identifier name) _ => some (.call .none (.identifier name.erase) [])
  | _ => none

/-- What is left of a statement of a script or of a function body. -/
def Statement.erase? (mode : HoistMode) : Statement → Option Statement
  | .functionDeclaration _ name id =>
    if mode = .script then some (.functionDeclaration .none name.erase id) else none
  | .variables declaration =>
    some (.variables ⟨.none, declaration.kind, declaration.declarators.map Declarator.erase⟩)
  | .expression _ e => e.eraseAsStatement?.map (.expression .none)
  | .block _ _ | .conditional _ _ _ _ | .whileLoop _ _ _ | .forLoop _ _ _ _ _ | .returns _ _
  | .empty _ => none

/-- What is left of the statements of a script or of a function body. -/
def eraseStatements (mode : HoistMode) (statements : List Statement) : List Statement :=
  statements.filterMap (Statement.erase? mode)

/-- What is left of a function. -/
def FunctionDefinition.erase (f : FunctionDefinition) : FunctionDefinition :=
  ⟨.none, f.name.map Identifier.erase, [], eraseStatements .functionBody f.body⟩

/-- A program without its inert code. -/
def Program.erase (p : Program) : Program :=
  ⟨eraseStatements .script p.body, p.functions.map FunctionDefinition.erase⟩

/-! ## Expressions -/

theorem Expression.path?_erase (e : Expression) : e.erase.path? = e.path? := by
  induction e using Expression.path?.induct with
  | case1 name => rfl
  | case2 span base property ih =>
    rw [erase, path?, path?, ih]
    rfl
  | case3 e notName notMember =>
    cases e with
    | identifier name => exact absurd rfl (notName name)
    | member span base property => exact absurd rfl (notMember span base property)
    | _ => rfl

theorem memberText_erase (object : Expression) (property : String) :
    memberText object.erase property = memberText object property := by
  rw [memberText, memberText, Expression.path?_erase]

/-- The description of an expression shows nothing of what is erased. -/
theorem Expression.describe_erase (e : Expression) : e.erase.describe = e.describe := by
  induction e using Expression.describe.induct with
  | case2 span base property => exact memberText_erase base property.name
  | case6 span callee arguments ih =>
    rw [erase, describe, describe, ih]
  | _ => rfl

mutual

/-- An erased expression is evaluated by the same execution. -/
theorem evaluate_erase : ∀ e : Expression, evaluate e.erase = evaluate e
  | .object _ properties => by
    simp only [Expression.erase, evaluate, fillObject_erase _ properties]
  | .member _ base property => by
    simp only [Expression.erase, evaluate, evaluate_erase base, Expression.describe_erase]
    rfl
  | .identifier name => by
    simp only [Expression.erase, evaluate]
    rfl
  | .literal _ _ | .array _ _ | .assignVariable _ _ _ | .assignMember _ _ _ _ _ | .call _ _ _
  | .function _ _ | .unary _ _ _ | .binary _ _ _ _ => by
    simp only [Expression.erase, evaluate]

theorem fillObject_erase (id : ObjectId) : ∀ properties : List (Property Expression),
    fillObject id (eraseProperties properties) = fillObject id properties
  | [] => by rw [eraseProperties]
  | ⟨_, .name key, value⟩ :: rest => by
    simp only [eraseProperties, fillObject, evaluate_erase value, fillObject_erase id rest]
  | ⟨_, .str _, _⟩ :: rest | ⟨_, .num _, _⟩ :: rest => by
    simp only [eraseProperties, fillObject, fillObject_erase id rest]

end

/-! ## Hoisting -/

theorem hoistVariables_erase (kind : DeclarationKind) (declarators : List Declarator) :
    hoistVariables kind (declarators.map Declarator.erase) = hoistVariables kind declarators := by
  induction declarators with
  | nil => rfl
  | cons declarator rest ih =>
    rw [List.map_cons, hoistVariables, hoistVariables, ih]
    rfl

/-- What is erased declares nothing. -/
theorem hoist_erase (mode : HoistMode) (statements : List Statement) :
    hoist mode (eraseStatements mode statements) = hoist mode statements := by
  induction statements with
  | nil => rfl
  | cons s rest ih =>
    rw [eraseStatements] at ih ⊢
    rw [List.filterMap_cons]
    match s with
    | .functionDeclaration span name id =>
      by_cases script : mode = .script
      · simp only [Statement.erase?, if_pos script, hoist, ih]
        rfl
      · simp only [Statement.erase?, if_neg script, hoist, ih]
    | .variables declaration =>
      simp only [Statement.erase?, hoist, hoistVariables_erase, ih]
    | .expression span e =>
      rw [hoist, ← ih, Statement.erase?]
      · cases e.eraseAsStatement? with
        | none => rfl
        | some e =>
          rw [Option.map_some, hoist]
          · exact fun _ _ _ h => nomatch h
          · exact fun _ h => nomatch h
      · exact fun _ _ _ h => nomatch h
      · exact fun _ h => nomatch h
    | .block _ _ | .conditional _ _ _ _ | .whileLoop _ _ _ | .forLoop _ _ _ _ _ | .returns _ _
    | .empty _ => simp only [Statement.erase?, hoist, ih]

/-! ## Statements -/

theorem declare_erase (kind : DeclarationKind) (declarators : List Declarator) :
    declare kind (declarators.map Declarator.erase) = declare kind declarators := by
  induction declarators with
  | nil => rfl
  | cons declarator rest ih =>
    obtain ⟨span, name, init⟩ := declarator
    cases init with
    | none => simpa only [List.map_cons, Declarator.erase, Option.map_none, declare] using ih
    | some init =>
      simp only [List.map_cons, Declarator.erase, Option.map_some, declare, evaluate_erase, ih]
      rfl

theorem firstArgument_erase (arguments : List Expression) :
    firstArgument (eraseExpressions (arguments.take 1)) = firstArgument arguments := by
  cases arguments with
  | nil => rfl
  | cons argument rest => exact evaluate_erase argument

/-- What is left of an expression that stands as a statement is executed in the same way. -/
theorem executeExpression_erase {e left : Expression} (call : String → Exec Unit)
    (h : e.eraseAsStatement? = some left) :
    executeExpression call left = executeExpression call e := by
  revert h
  fun_cases Expression.eraseAsStatement? e with
  | case1 span target value =>
    rintro ⟨⟩
    simp only [executeExpression, assignVariable, evaluate_erase]
    rfl
  | case2 span targetSpan base property value =>
    rintro ⟨⟩
    simp only [executeExpression, assignProperty, evaluate_erase]
    rfl
  | case3 span memberSpan base method arguments =>
    rintro ⟨⟩
    simp only [executeExpression, callMethod, memberText_erase, firstArgument_erase]
    rfl
  | case4 span name arguments =>
    rintro ⟨⟩
    rfl
  | case5 => rintro ⟨⟩

/-- An expression of which nothing is left does nothing as a statement. -/
theorem executeExpression_of_erase_eq_none {e : Expression} (call : String → Exec Unit)
    (h : e.eraseAsStatement? = none) : executeExpression call e = pure () := by
  revert h
  fun_cases Expression.eraseAsStatement? e with
  | case5 e notVariable notMember notMethod notName =>
    intro _
    exact executeExpression.eq_5 call e notVariable notMember notMethod notName
  | _ => rintro ⟨⟩

/-- What is left of a statement is executed in the same way. -/
theorem execute_erase {mode : HoistMode} {s left : Statement} (call : String → Exec Unit)
    (h : s.erase? mode = some left) : execute call left = execute call s := by
  revert h
  fun_cases Statement.erase? mode s with
  | case1 span name id script =>
    rintro ⟨⟩
    rfl
  | case3 declaration =>
    rintro ⟨⟩
    exact declare_erase _ _
  | case4 span e =>
    intro h
    obtain ⟨left, erased, rfl⟩ := Option.map_eq_some_iff.mp h
    exact executeExpression_erase call erased
  | _ => exact fun h => nomatch h

/-- A statement of which nothing is left does nothing. -/
theorem execute_of_erase_eq_none {mode : HoistMode} {s : Statement} (call : String → Exec Unit)
    (h : s.erase? mode = none) : execute call s = pure () := by
  match s, h with
  | .variables declaration, h => exact nomatch h
  | .expression span e, h =>
    exact executeExpression_of_erase_eq_none call (Option.map_eq_none_iff.mp h)
  | .functionDeclaration _ _ _, _ | .block _ _, _ | .conditional _ _ _ _, _ | .whileLoop _ _ _, _
  | .forLoop _ _ _ _ _, _ | .returns _ _, _ | .empty _, _ => rfl

theorem executeAll_erase (mode : HoistMode) (call : String → Exec Unit)
    (statements : List Statement) :
    executeAll call (eraseStatements mode statements) = executeAll call statements := by
  induction statements with
  | nil => rfl
  | cons s rest ih =>
    rw [eraseStatements] at ih ⊢
    rw [List.filterMap_cons, executeAll]
    cases left : s.erase? mode with
    | none =>
      rw [execute_of_erase_eq_none call left]
      exact ih
    | some left' => rw [executeAll, execute_erase call left, ih]

/-! ## Calls -/

theorem Program.function?_erase (p : Program) (id : FunctionId) :
    p.erase.function? id = (p.function? id).map FunctionDefinition.erase :=
  Array.getElem?_map

theorem runBody_erase (p : Program) (call : String → Exec Unit) (name : String)
    (id : FunctionId) : runBody p.erase call name id = runBody p call name id := by
  funext scope outer
  rw [runBody, runBody, Program.function?_erase]
  cases p.function? id with
  | none => rfl
  | some definition =>
    simp only [Option.map_some, FunctionDefinition.erase, hoist_erase, executeAll_erase]

/-- **A call is the same execution in the erased program.** -/
theorem callFunction_erase (p : Program) (limit allowance : Nat) :
    callFunction p.erase limit allowance = callFunction p limit allowance := by
  induction allowance with
  | zero =>
    funext name
    rw [callFunction, callFunction]
  | succ allowance ih =>
    funext name
    simp only [callFunction, ih, runBody_erase]

/-! ## Scripts -/

/-- Executions that run alike, one after the other. -/
theorem Exec.run_bind_congr {α β : Type} {x y : Exec α} {f g : α → Exec β} {m : Machine}
    (first : x.run m = y.run m) (rest : ∀ a m', (f a).run m' = (g a).run m') :
    (x >>= f).run m = (y >>= g).run m := by
  rcases outcome : y.run m with ⟨fault | a, m'⟩
  · rw [run_bind_of_error outcome, run_bind_of_error (first.trans outcome)]
  · rw [run_bind_of_ok outcome, run_bind_of_ok (first.trans outcome), rest]

theorem run_executeStatement (p : Program) (limit : Nat) (s : Statement) (m : Machine) :
    (executeStatement p limit s).run m =
      (execute (callFunction p limit (limit - m.stack.depth)) s).run m := rfl

/-- The erased statements of a script run as all of them do. -/
theorem run_executeStatements_erase (p : Program) (limit : Nat) (statements : List Statement)
    (m : Machine) :
    (executeStatements p.erase limit (eraseStatements .script statements)).run m =
      (executeStatements p limit statements).run m := by
  induction statements generalizing m with
  | nil => rfl
  | cons s rest ih =>
    rw [eraseStatements] at ih ⊢
    rw [List.filterMap_cons, executeStatements]
    have first := run_executeStatement p limit s m
    cases left : s.erase? .script with
    | none =>
      rw [execute_of_erase_eq_none _ left] at first
      rw [Exec.run_bind_of_ok first]
      exact ih m
    | some left' =>
      have same := run_executeStatement p.erase limit left' m
      rw [callFunction_erase, execute_erase _ left, ← first] at same
      exact Exec.run_bind_congr same fun _ => ih

theorem run_runScript_erase (config : Config) (p : Program) (m : Machine) :
    (runScript config p.erase).run m = (runScript config p).run m := by
  rw [runScript, runScript]
  refine Exec.run_bind_congr rfl fun _ m => ?_
  refine Exec.run_bind_congr ?_ fun _ m => run_executeStatements_erase p _ p.body m
  exact congrArg (fun x : Exec Unit => x.run m) (hoist_erase .script p.body)

/-- **Inert code never matters.**  A program and what is left of it after the erasure have the same
trace, under every configuration. -/
theorem runProgram_erase (config : Config) (p : Program) :
    runProgram config p.erase = runProgram config p := by
  rw [runProgram, runProgram, run_runScript_erase]

/-! ## Offsets -/

section Offsets

variable (f : Nat → Nat)

mutual

theorem Expression.erase_recast : ∀ e : Expression, (e.recast (.moving f)).erase = e.erase
  | .literal _ _ | .identifier _ | .function _ _ => rfl
  | .object _ properties => by
    rw [Expression.recast, Expression.erase, eraseProperties_recast properties, Expression.erase]
  | .array _ elements => by
    rw [Expression.recast, Expression.erase, eraseExpressions_recast elements, Expression.erase]
  | .member _ base _ => by
    rw [Expression.recast, Expression.erase, base.erase_recast, Expression.erase]
    rfl
  | .assignVariable _ _ value => by
    rw [Expression.recast, Expression.erase, value.erase_recast, Expression.erase]
    rfl
  | .assignMember _ _ base _ value => by
    rw [Expression.recast, Expression.erase, base.erase_recast, value.erase_recast,
      Expression.erase]
    rfl
  | .call _ callee arguments => by
    rw [Expression.recast, Expression.erase, callee.erase_recast,
      eraseExpressions_recast arguments, Expression.erase]
  | .unary _ _ operand => by
    rw [Expression.recast, Expression.erase, operand.erase_recast, Expression.erase]
  | .binary _ _ left right => by
    rw [Expression.recast, Expression.erase, left.erase_recast, right.erase_recast,
      Expression.erase]

theorem eraseExpressions_recast : ∀ es : List Expression,
    eraseExpressions (recastExpressions (.moving f) es) = eraseExpressions es
  | [] => rfl
  | e :: rest => by
    rw [recastExpressions, eraseExpressions, e.erase_recast, eraseExpressions_recast rest,
      eraseExpressions]

theorem eraseProperties_recast : ∀ properties : List (Property Expression),
    eraseProperties (recastProperties (.moving f) properties) = eraseProperties properties
  | [] => rfl
  | ⟨_, .name key, value⟩ :: rest => by
    rw [recastProperties, eraseProperties, ← eraseProperties_recast rest, ← value.erase_recast]
    rfl
  | ⟨_, .str _, _⟩ :: rest | ⟨_, .num _, _⟩ :: rest => by
    rw [recastProperties, eraseProperties, ← eraseProperties_recast rest]
    rfl

end

theorem Declarator.erase_recast (d : Declarator) : (d.recast (.moving f)).erase = d.erase := by
  obtain ⟨span, name, init⟩ := d
  cases init with
  | none => rfl
  | some e => simp only [Declarator.recast, Declarator.erase, Option.map_some, e.erase_recast]; rfl

theorem eraseAsStatement?_recast (e : Expression) :
    (e.recast (.moving f)).eraseAsStatement? = e.eraseAsStatement? := by
  cases e with
  | assignVariable _ _ value =>
    simp only [Expression.recast, Expression.eraseAsStatement?, value.erase_recast]
    rfl
  | assignMember _ _ base _ value =>
    simp only [Expression.recast, Expression.eraseAsStatement?, base.erase_recast,
      value.erase_recast]
    rfl
  | call _ callee arguments =>
    cases callee with
    | member _ base method =>
      have first : (recastExpressions (.moving f) arguments).take 1 =
          recastExpressions (.moving f) (arguments.take 1) := by
        simp only [recastExpressions_eq_map, List.map_take]
      simp only [Expression.recast, Expression.eraseAsStatement?, base.erase_recast, first,
        eraseExpressions_recast]
      rfl
    | _ => rfl
  | _ => rfl

theorem Statement.erase?_recast (mode : HoistMode) (s : Statement) :
    (s.recast (.moving f)).erase? mode = s.erase? mode := by
  cases s with
  | «variables» d =>
    have each : Declarator.erase ∘ Declarator.recast (.moving f) = Declarator.erase :=
      funext fun declarator => declarator.erase_recast f
    simp only [Statement.recast, Statement.erase?, Declaration.recast, List.map_map, each]
  | expression span e =>
    simp only [Statement.recast, Statement.erase?, eraseAsStatement?_recast]
  | conditional span test consequent alternate => cases alternate <;> rfl
  | _ => rfl

theorem eraseStatements_recast (mode : HoistMode) (statements : List Statement) :
    eraseStatements mode (recastStatements (.moving f) statements) =
      eraseStatements mode statements := by
  have each : Statement.erase? mode ∘ Statement.recast (.moving f) = Statement.erase? mode :=
    funext fun s => s.erase?_recast f mode
  rw [eraseStatements, recastStatements_eq_map, List.filterMap_map, each, eraseStatements]

/-- What is left of a program does not depend on its offsets. -/
theorem Program.erase_recast (p : Program) : (p.recast (.moving f)).erase = p.erase := by
  have each : FunctionDefinition.erase ∘ FunctionDefinition.recast (.moving f) =
      FunctionDefinition.erase := by
    funext g
    simp only [Function.comp, FunctionDefinition.recast, FunctionDefinition.erase,
      eraseStatements_recast, Option.map_map]
    rfl
  rw [Program.recast, Program.erase, eraseStatements_recast, Array.map_map, each, Program.erase]

/-- **The trace of a program does not depend on its offsets.** -/
theorem runProgram_recast (config : Config) (p : Program) :
    runProgram config (p.recast (.moving f)) = runProgram config p := by
  rw [runProgram, runProgram, ← run_runScript_erase config (p.recast (.moving f)),
    Program.erase_recast, run_runScript_erase]

end Offsets

end ScriptTrace
