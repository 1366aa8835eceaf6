import ScriptTrace.Proofs.Settling
import ScriptTrace.Proofs.StackBalance
import ScriptTrace.Proofs.ValueFlow

/-!
# Variables stay initialized

That no variable loses its value while statements run is a matter of when hoisting runs: it is over
in a scope before the first statement there begins, and it never comes back.

## Why it never comes back

What is left to do when the hoisting of a scope has ended comes in three parts.  The statements of
the scope take no value away in it, and neither does the end of its frame (`Exec.Settled`).  When
the frame has been left, the scope is on the stack no more, and since new frames have new scopes it
never will be; so whatever runs then, it runs in other scopes (`Machine.HasLeft`).

The moment at which the hoisting of a scope ends is a point of the run, with these three parts left
to do (`HoistingEnds`).  Every scope has such a point or its hoisting ends with a fault, since every
scope but that of the script belongs to the frame of a call, and the body of the call begins with
the hoisting (`Exec.BeginsBody`).

* `HoistingEnds.along`: what is left to do after hoisting takes no value away.
* `beginsBody_runScript`: the points at which scopes begin.
* `variables_stay_initialized`: both, and what follows for the reading of variables.
-/

namespace ScriptTrace

/-! ## Scopes whose frame has been left -/

theorem Stack.mem_of_mem_pop {s : Stack} {frame : Frame} (mem : frame ∈ s.pop.frames) :
    frame ∈ s.frames := by
  unfold Stack.pop at mem
  split at mem
  · rename_i frames
    rw [frames]
    exact List.mem_cons_of_mem _ mem
  · exact mem

namespace Machine

/-- A scope other than that of the script is there, and no frame of the stack has it. -/
structure HasLeft (id : ScopeId) (m : Machine) : Prop where
  ne_global : id ≠ globalScope
  lt_size : id < m.scopes.size
  scope_ne : ∀ frame ∈ m.stack.frames, frame.scope ≠ id

theorem HasLeft.currentScope_ne {id : ScopeId} {m : Machine} (left : m.HasLeft id) :
    m.currentScope ≠ id := by
  rw [currentScope, Stack.running?]
  cases running : m.stack.frames.head? with
  | none => exact left.ne_global.symm
  | some frame => exact left.scope_ne frame (List.mem_of_mem_head? running)

/-- **A frame that has been left does not come back**: a new frame has a new scope. -/
theorem HasLeft.apply {id : ScopeId} {m : Machine} (left : m.HasLeft id) (effect : Effect) :
    (effect.apply m).HasLeft id where
  ne_global := left.ne_global
  lt_size := Nat.lt_of_lt_of_le left.lt_size (effect.size_scopes_le m)
  scope_ne := by
    cases effect with
    | enter name function =>
      intro frame mem
      rcases List.mem_cons.mp mem with rfl | mem
      · exact Nat.ne_of_gt left.lt_size
      · exact left.scope_ne frame mem
    | leave => exact fun frame mem => left.scope_ne frame (Stack.mem_of_mem_pop mem)
    | _ => exact left.scope_ne

theorem HasLeft.along {α : Type} {id : ScopeId} {m : Machine} (left : m.HasLeft id) (x : Exec α) :
    x.Along (Effect.Settles id) m := by
  refine .of_forall_effect (fun effect _ h => h.apply effect) (fun effect s h => ?_) x left
  cases effect with
  | bind name binding => exact fun own => absurd own h.currentScope_ne
  | _ => trivial

/-- The frames under the running one have other scopes. -/
theorem Linked.scope_ne_of_mem_pop {m : Machine} (h : m.Linked)
    (inner : m.currentScope ≠ globalScope) :
    ∀ frame ∈ m.stack.pop.frames, frame.scope ≠ m.currentScope := by
  have down := h.walk.pairwise_gt h.wellLinked
  have last := h.walk.getLast?_eq h.wellLinked
  have head := h.walk.head?_eq
  intro frame mem
  unfold Stack.pop at mem
  match frames : m.stack.frames with
  | [] => exact absurd frames h.frames_ne_nil
  | [top] =>
    -- a frame without others under it is that of the script
    simp only [frames, List.map_cons, List.map_nil, List.head?_cons, List.getLast?_singleton,
      Option.some.injEq] at head last
    exact absurd (head.symm.trans last) inner
  | top :: next :: rest =>
    simp only [frames, List.map_cons, List.head?_cons, Option.some.injEq] at head down mem
    rw [← head]
    have below := (List.pairwise_cons.mp down).1 frame.scope (List.mem_map_of_mem mem)
    exact Nat.ne_of_lt below

end Machine

theorem stack_run_leaveFrame (name : String) (outcome : Except Fault Unit) (m : Machine) :
    ((leaveFrame name outcome).run m).2.stack = m.stack.pop := by
  cases outcome with
  | error fault => rfl
  | ok _ =>
    rw [leaveFrame, Exec.run_perform_bind, Exec.run_asks_bind]
    cases room : (Effect.leave.apply m).recorder.reached? with
    | some limit =>
      rw [run_record_of_reached room]
      rfl
    | none =>
      rw [run_record_of_room room]
      rfl

/-! ## The end of hoisting -/

/-- What is left to do when the statements of a call begin: the statements, the end of the frame,
and what comes after the call. -/
def statementsThen (program : Program) (limit allowance : Nat) (name : String)
    (statements : List Statement) (next : Except Fault Unit → Exec Unit) : Exec Unit :=
  ((executeAll (callFunction program limit allowance) statements).attempt (leaveFrame name)).attempt
    next

/-- What is left to do when the body of a call begins: the body, the end of the frame, and what
comes after the call. -/
def bodyThen (program : Program) (limit allowance : Nat) (name : String) (function : FunctionId)
    (scope outer : ScopeId) (next : Except Fault Unit → Exec Unit) : Exec Unit :=
  ((runBody program (callFunction program limit allowance) name function scope outer).attempt
    (leaveFrame name)).attempt next

/-- The hoisting of a scope ends at a point of a run. -/
inductive HoistingEnds (config : Config) (program : Program) :
    ScopeId → Exec Unit → Machine → Prop
  /-- The script has been opened, and its statements are left to do. -/
  | script {statements : List Statement} {m : Machine}
      (opened : (openScript config program).run (.initial config) = (.ok statements, m)) :
      HoistingEnds config program globalScope
        (executeStatements program config.callDepthLimit statements) m
  /-- The body of a call has been opened in its frame, and its statements are left to do. -/
  | call {allowance : Nat} {name : String} {function : FunctionId} {scope outer : ScopeId}
      {next : Except Fault Unit → Exec Unit} {begun m : Machine} {statements : List Statement}
      (begins : (runScript config program).Arrives (.initial config)
        (bodyThen program config.callDepthLimit allowance name function scope outer next) begun)
      (own : begun.currentScope = scope) (inner : scope ≠ globalScope)
      (opened : (openBody program name function scope outer).run begun = (.ok statements, m)) :
      HoistingEnds config program scope
        (statementsThen program config.callDepthLimit allowance name statements next) m

namespace HoistingEnds

variable {config : Config} {program : Program} {id : ScopeId} {rest : Exec Unit} {m : Machine}

/-- The end of hoisting is a point of the run. -/
theorem arrives (ends : HoistingEnds config program id rest m) :
    (runScript config program).Arrives (.initial config) rest m := by
  cases ends with
  | script opened =>
    rw [runScript_eq]
    exact .of_run_ok opened _
  | call begins own inner opened =>
    refine begins.trans ?_
    rw [bodyThen, runBody_eq]
    exact ((Exec.Arrives.of_run_ok opened _).attempt _).attempt _

theorem lt_size (ends : HoistingEnds config program id rest m) : id < m.scopes.size := by
  cases ends with
  | script opened => exact Exec.lt_size_of_run opened Nat.zero_lt_one
  | call begins own inner opened =>
    refine Exec.lt_size_of_run opened ?_
    rw [← own]
    exact (Machine.linked_of_mem_states begins.mem_states).walk.start_lt_size

/-- **What is left to do after hoisting takes no value away in the scope**: neither the statements
of the scope, nor the end of its frame, nor what comes after the frame has been left. -/
theorem along (ends : HoistingEnds config program id rest m) :
    rest.Along (Effect.Settles id) m := by
  have inside := ends.lt_size
  cases ends with
  | script opened => exact settled_executeStatements program _ _ m inside
  | @call allowance name function scope outer next begun _ statements begins own inner opened =>
    have linked := Machine.linked_of_mem_states begins.mem_states
    have still := (calm_openBody program name function id outer).stack_run begun
    rw [opened] at still
    have kept := (orderly_executeAll (orderly_callFunction program config.callDepthLimit allowance)
      statements).stack_run (m := m) (still ▸ linked.frames_ne_nil)
    have settled : (executeAll (callFunction program config.callDepthLimit allowance)
        statements).Settled id :=
      settled_executeAll (settled_callFunction program config.callDepthLimit allowance) statements
    rw [statementsThen]
    -- the statements leave the stack as it was, so the frame that is left is that of the scope
    refine .attempt (.attempt (settled m inside) ?_) (Machine.HasLeft.along ⟨inner, ?_, ?_⟩ _)
    · exact settled_leaveFrame name _ _ (Exec.lt_size_run _ inside)
    · exact Exec.lt_size_run _ inside
    · rw [Exec.run_attempt, stack_run_leaveFrame, kept, still, ← own]
      exact linked.scope_ne_of_mem_pop (own ▸ inner)

end HoistingEnds

/-! ## Where scopes begin -/

namespace Exec

variable {α β : Type} {program : Program} {limit : Nat}

/-- An execution comes to the point where the body of a call begins, in the frame with a scope. -/
def BeginsBody (program : Program) (limit : Nat) (id : ScopeId) (x : Exec Unit) (m : Machine) :
    Prop :=
  ∃ allowance name function outer next begun,
    x.Arrives m (bodyThen program limit allowance name function id outer next) begun ∧
      begun.currentScope = id

/-- Every scope that an execution adds is the scope of a call, whatever comes after. -/
def Opens (program : Program) (limit : Nat) (x : Exec α) (m : Machine) : Prop :=
  ∀ s ∈ x.states m, ∀ id, m.scopes.size ≤ id → id < s.scopes.size →
    ∀ next, (x.attempt next).BeginsBody program limit id m

theorem BeginsBody.of_arrives {x y : Exec Unit} {m s : Machine} {id : ScopeId}
    (arrives : x.Arrives m y s) (begins : y.BeginsBody program limit id s) :
    x.BeginsBody program limit id m := by
  obtain ⟨allowance, name, function, outer, next, begun, further, own⟩ := begins
  exact ⟨allowance, name, function, outer, next, begun, arrives.trans further, own⟩

namespace Opens

variable {x : Exec α} {m : Machine}

theorem of_size_eq (same : ∀ s ∈ x.states m, s.scopes.size = m.scopes.size) :
    x.Opens program limit m := by
  intro s hs id old new
  rw [same s hs] at new
  exact absurd new (Nat.not_lt_of_le old)

theorem done (result : α) (m : Machine) : (Exec.done result).Opens program limit m :=
  .of_size_eq fun _ hs => congrArg (·.scopes.size) (List.mem_singleton.mp hs)

theorem raise (fault : Fault) (m : Machine) :
    (Exec.raise fault : Exec α).Opens program limit m :=
  .of_size_eq fun _ hs => congrArg (·.scopes.size) (List.mem_singleton.mp hs)

theorem calm (h : x.Calm) (m : Machine) : x.Opens program limit m := by
  refine .of_size_eq ?_
  refine h.forall_states_of_forall (P := fun s => s.scopes.size = m.scopes.size) ?_ rfl
  intro effect s isCalm same
  cases effect with
  | bind name binding => exact (Scopes.size_put _ _ _ _).trans same
  | enter _ _ | leave | noteFault => exact nomatch isCalm
  | _ => exact same

theorem record (event : Event) (m : Machine) :
    (ScriptTrace.record event).Opens program limit m := by
  refine .of_size_eq fun s hs => ?_
  rcases mem_states_record hs with rfl | rfl <;> rfl

theorem perform {effect : Effect} (same : (effect.apply m).scopes.size = m.scopes.size) :
    (Exec.perform effect).Opens program limit m := by
  refine .of_size_eq fun s hs => ?_
  have passed : s = m ∨ s = effect.apply m := by simpa [Exec.perform, states] using hs
  rcases passed with rfl | rfl
  · rfl
  · exact same

theorem attempt {next : Except Fault α → Exec β} (first : x.Opens program limit m)
    (second : (next (x.run m).1).Opens program limit (x.run m).2) :
    (x.attempt next).Opens program limit m := by
  intro s hs id old new further
  rw [attempt_attempt]
  -- a scope that is there when the first execution has ended was added by it
  by_cases early : id < (x.run m).2.scopes.size
  · exact first _ (x.run_mem_states m) id old early _
  rcases mem_states_attempt hs with hs | hs
  · exact first s hs id old new _
  · exact .of_arrives (.of_run rfl _) (second s hs id (Nat.le_of_not_lt early) new further)

theorem bind {next : α → Exec β} (first : x.Opens program limit m)
    (each : ∀ a m', x.run m = (.ok a, m') → (next a).Opens program limit m') :
    (x >>= next).Opens program limit m := by
  rw [bind_eq_afterResult]
  refine first.attempt ?_
  rcases outcome : x.run m with ⟨fault | a, m'⟩
  · exact .raise fault m'
  · exact each a m' outcome

end Opens

end Exec

section

variable {program : Program} {limit : Nat}

theorem opens_leaveFrame (name : String) (outcome : Except Fault Unit) (m : Machine) :
    (leaveFrame name outcome).Opens program limit m := by
  cases outcome with
  | ok _ =>
    rw [leaveFrame]
    refine .bind (.perform rfl) fun _ m₁ _ => .bind (.calm (.asks _) m₁) fun depth m₂ _ => ?_
    exact .record _ m₂
  | error fault =>
    rw [leaveFrame]
    refine .bind (.perform rfl) fun _ m₁ _ => .bind (.perform rfl) fun _ m₂ _ => ?_
    exact .raise fault m₂

/-- The scope that a call adds is that of its own body. -/
theorem opens_inFrame (allowance : Nat) (name : String) (function : FunctionId)
    (each : ∀ scope outer m, (runBody program (callFunction program limit allowance) name function
      scope outer).Opens program limit m) (m : Machine) :
    (inFrame name function (runBody program (callFunction program limit allowance) name
      function)).Opens program limit m := by
  rw [inFrame]
  refine .bind (.calm (.asks _) m) fun depth m₁ _ => .bind (.record _ m₁) fun _ m₂ _ => ?_
  refine .bind (.calm (.asks _) m₂) fun scope m₃ asked => ?_
  obtain ⟨rfl, rfl⟩ : m₂.scopes.size = scope ∧ m₂ = m₃ := by simpa [Exec.asks, Exec.run] using asked
  refine .bind (.calm (.asks _) m₂) fun outer m₄ asked' => ?_
  obtain rfl : m₂ = m₄ := congrArg Prod.snd asked'
  intro s hs id old new next
  have entered : Exec.Arrives _ m₂ _ ((Effect.enter name (some function)).apply m₂) :=
    .act (.here (bodyThen program limit allowance name function m₂.scopes.size outer next) _)
  by_cases first : id = m₂.scopes.size
  · subst first
    exact ⟨allowance, name, function, outer, next, _, entered, rfl⟩
  · rcases List.mem_cons.mp hs with rfl | hs
    · exact absurd new (Nat.not_lt_of_le old)
    · refine .of_arrives entered ((Exec.Opens.attempt (each _ outer _)
        (opens_leaveFrame name _ _)) s hs id ?_ new next)
      show (m₂.scopes.add name m₂.currentScope).size ≤ id
      rw [Scopes.size_add]
      omega

theorem opens_execute {call : String → Exec Unit}
    (each : ∀ name m, (call name).Opens program limit m) (s : Statement) (m : Machine) :
    (execute call s).Opens program limit m := by
  cases called : s.calledName? with
  | some name =>
    rw [execute_of_calledName? called]
    exact each name m
  | none => exact .calm (calm_execute_of_calledName? called call) m

theorem opens_executeAll {call : String → Exec Unit}
    (each : ∀ name m, (call name).Opens program limit m) (statements : List Statement)
    (m : Machine) : (executeAll call statements).Opens program limit m := by
  induction statements generalizing m with
  | nil =>
    rw [executeAll]
    exact .done _ m
  | cons s rest ih =>
    rw [executeAll]
    exact .bind (opens_execute each s m) fun _ m' _ => ih m'

theorem opens_callFunction (allowance : Nat) (name : String) (m : Machine) :
    (callFunction program limit allowance name).Opens program limit m := by
  induction allowance generalizing name m with
  | zero =>
    rw [callFunction_eq]
    exact .bind (.calm (calm_announceCall name) m) fun function m₁ _ => .raise _ m₁
  | succ allowance ih =>
    rw [callFunction_eq]
    refine .bind (.calm (calm_announceCall name) m) fun function m₁ _ => ?_
    refine opens_inFrame allowance name function (fun scope outer m₂ => ?_) m₁
    rw [runBody_eq]
    exact .bind (.calm (calm_openBody _ _ _ _ _) m₂) fun statements m₃ _ =>
      opens_executeAll ih statements m₃

theorem opens_executeStatements (statements : List Statement) (m : Machine) :
    (executeStatements program limit statements).Opens program limit m := by
  induction statements generalizing m with
  | nil =>
    rw [executeStatements]
    exact .done _ m
  | cons s rest ih =>
    rw [executeStatements]
    refine .bind (fun t ht id old new next => ?_) fun _ m' _ => ih m'
    have inner := opens_execute (opens_callFunction _) s m t ht id old new next
    exact .of_arrives (.look (.here _ m)) inner

/-- **Every scope but that of the script begins with the body of a call.** -/
theorem beginsBody_runScript {config : Config} {m : Machine}
    (reached : m ∈ (runScript config program).states (.initial config)) {id : ScopeId}
    (there : id < m.scopes.size) (inner : id ≠ globalScope) :
    (runScript config program).BeginsBody program config.callDepthLimit id (.initial config) := by
  have opens :
      (runScript config program).Opens program config.callDepthLimit (.initial config) := by
    rw [runScript_eq]
    exact .bind (.calm (calm_openScript _ _) _) fun statements m' _ =>
      opens_executeStatements statements m'
  have begins := opens m reached id (Nat.pos_of_ne_zero inner) there (Exec.afterResult .done)
  rw [← Exec.bind_eq_afterResult] at begins
  rwa [← bind_pure (runScript config program)]

end

/-! ## Variables with a value -/

/-- Bindings are consistent, whatever their values are. -/
theorem valueRule_consistent :
    ValueRule True (Machine.EachBinding Binding.Consistent) fun _ _ => True where
  evaluates e m consistent := by
    refine ⟨fun s hs => ?_, fun _ => trivial, fun _ => ⟨m, Exec.mem_states_start _ m, trivial⟩⟩
    rw [Machine.EachBinding, scopes_of_mem_states_evaluate e m s hs]
    exact consistent
  plain _ _ _ := trivial
  stays _ _ _ _ := trivial
  mute _ _ isMute consistent := consistent.mute isMute
  binds name _ _ new consistent _ := consistent.bind name new
  assign _ _ _ _ _ consistent _ _ := consistent

theorem consistent_of_mem_states {config : Config} {program : Program} {m : Machine}
    (reached : m ∈ (runScript config program).states (.initial config)) :
    m.EachBinding Binding.Consistent := by
  have run : (runScript config program).Maintains (Machine.EachBinding Binding.Consistent) :=
    valueRule_consistent.maintains_runScript (fun _ _ _ => trivial) config
  exact (run _ (.initial _ config)).always_of_mem m reached

/-- A variable that has been given a value can be read. -/
theorem initialized_of_run_giveValue {name : String} {event : Shown → Event} {e : Expression}
    {m m' : Machine} (ended : (giveValue name event e).run m = (.ok (), m'))
    (inside : m.currentScope < m.scopes.size) :
    ∃ binding, m'.scopes.binding? name m.currentScope = some binding ∧
      binding.initialized = true := by
  rw [giveValue] at ended
  obtain ⟨value, m₁, evaluated, ended⟩ := Exec.exists_of_run_bind_eq_ok ended
  rw [Exec.run_asks_bind] at ended
  obtain ⟨_, m₂, told, bound⟩ := Exec.exists_of_run_bind_eq_ok ended
  obtain rfl := eq_of_run_record_eq_ok told
  obtain rfl : m' = _ := (congrArg Prod.snd bound).symm
  have stack := (calm_evaluate e).stack_run m
  have inside₁ := Exec.lt_size_of_run evaluated inside
  rw [evaluated] at stack
  have same : m.currentScope = m₁.currentScope := by
    rw [Machine.currentScope, Machine.currentScope, stack]
  obtain ⟨scope, here⟩ : ∃ scope, m₁.scopes.get? m.currentScope = some scope :=
    ⟨_, Array.getElem?_eq_getElem inside₁⟩
  refine ⟨.holding value, ?_, rfl⟩
  show (m₁.scopes.put m₁.currentScope name (.holding value)).binding? name m.currentScope = _
  rw [Scopes.binding?_put, if_pos ⟨same.symm, rfl⟩, here]
  rfl

/-- A variable of a frame is read from there and from the frames above that do not bind it. -/
theorem Machine.Linked.exists_lookup {m : Machine} (h : m.Linked) {name : String}
    {above below : List Frame} {frame : Frame} (frames : m.stack.frames = above ++ frame :: below)
    (unbound : ∀ other ∈ above, m.scopes.binding? name other.scope = none) {binding : Binding}
    (bound : m.scopes.binding? name frame.scope = some binding)
    (initialized : binding.initialized = true) : ∃ value, m.lookup name = .ok value := by
  refine ⟨_, (h.lookup_eq_ok_iff name _).mpr ⟨binding, ?_, initialized, rfl⟩⟩
  rw [topmostBinding?, frames, List.findSome?_append, List.findSome?_eq_none_iff.mpr unbound,
    List.findSome?_cons, bound]
  rfl

theorem Machine.Gains.exists_initialized {id : ScopeId} {m m' : Machine} (gains : m.Gains id m')
    {name : String} {binding : Binding} (bound : m.scopes.binding? name id = some binding)
    (initialized : binding.initialized = true) :
    ∃ binding', m'.scopes.binding? name id = some binding' ∧ binding'.initialized = true := by
  obtain ⟨scope, here, own⟩ := Option.bind_eq_some_iff.mp bound
  obtain ⟨scope', there, gained⟩ := gains scope here
  obtain ⟨binding', own', initialized'⟩ := gained.initialized name binding own initialized
  refine ⟨binding', ?_, initialized'⟩
  rw [Scopes.binding?, there]
  exact own'

/-! ## Every run -/

/-- **Variables stay initialized.**  In every state of a run, a variable can be read exactly if it
has a value; and every scope but that of the script belongs to a call whose body began in it.

Let the hoisting of a scope end, that of the script or that of a call.  The states of the run from
then on are those of what is left to do.  From any of them to any later one, the names of the scope
stay as they are, in order, with new ones at the end, and the variables of the scope that could be
read can be read.

Now let a variable be given a value while the frame of the scope is running, by an initializer or by
an assignment.  In every later state in which the frame is on the stack, and in which no frame above
it binds the name, the variable can be read. -/
theorem variables_stay_initialized (config : Config) (program : Program) :
    (∀ s ∈ (runScript config program).states (.initial config),
      (∀ id name binding, s.scopes.binding? name id = some binding →
        (binding.initialized = true ↔ ∃ value, binding.value = some value)) ∧
      ∀ id, id < s.scopes.size → id ≠ globalScope →
        (runScript config program).BeginsBody program config.callDepthLimit id
          (.initial config)) ∧
    ∀ id rest m, HoistingEnds config program id rest m →
      rest.states m <:+ (runScript config program).states (.initial config) ∧
      (∃ scope, m.scopes.get? id = some scope) ∧ (rest.states m).Pairwise (Machine.Gains id) ∧
      ∀ name event e next s s', rest.Arrives m ((giveValue name event e).attempt next) s →
        s.currentScope = id → (giveValue name event e).run s = (.ok (), s') →
          ∀ t ∈ (next (.ok ())).states s', ∀ above frame below,
            t.stack.frames = above ++ frame :: below → frame.scope = id →
            (∀ other ∈ above, t.scopes.binding? name other.scope = none) →
              ∃ value, t.lookup name = .ok value := by
  refine ⟨fun s reached => ⟨fun id name binding bound => ?_, fun id there inner => ?_⟩, ?_⟩
  · have consistent := consistent_of_mem_states reached id name binding bound
    rw [Binding.Consistent] at consistent
    rw [consistent, Option.isSome_iff_exists]
  · exact beginsBody_runScript reached there inner
  intro id rest m ends
  have along := ends.along
  refine ⟨ends.arrives.states_suffix, ⟨_, Array.getElem?_eq_getElem ends.lt_size⟩,
    along.pairwise_states (.refl id) .trans Effect.Settles.gains, ?_⟩
  rintro name event e next s s' arrives rfl given t later above frame below frames own unbound
  have point := ends.arrives.trans arrives
  have after := point.trans (.of_run given next)
  have inside := (Machine.linked_of_mem_states point.mem_states).walk.start_lt_size
  obtain ⟨binding, bound, initialized⟩ := initialized_of_run_giveValue given inside
  have further := (along.of_arrives arrives).of_arrives (.of_run given next)
  have gains := further.forall_states (.refl s.currentScope) .trans Effect.Settles.gains t later
  obtain ⟨binding', bound', initialized'⟩ := gains.exists_initialized bound initialized
  have linked := Machine.linked_of_mem_states (after.states_suffix.mem later)
  rw [← own] at bound'
  exact linked.exists_lookup frames unbound bound' initialized'

/-- The script `let a = true; function f() { b = a; } f();`. -/
def readsInside : Program where
  body :=
    [.variables ⟨⟨0, 0⟩, .letKind, [⟨⟨0, 0⟩, ⟨"a", ⟨0, 0⟩⟩, some (.literal ⟨0, 0⟩ (.bool true))⟩]⟩,
      .functionDeclaration ⟨0, 0⟩ ⟨"f", ⟨0, 0⟩⟩ 0, callOfF]
  functions := failingCall.functions

/-- Inside the call the variable `a` of the script, which has got its value, can be read. -/
theorem readsInside_reads :
    ∃ t ∈ (runScript {} readsInside).states (.initial {}), t.stack.names = ["Global", "f"] ∧
      ∃ value, t.lookup "a" = .ok value := by
  let m := ((openScript {} readsInside).run (.initial {})).2
  let rest := executeStatements readsInside (Config.callDepthLimit {})
  let next := fun _ : Unit => declare .letKind [] >>= fun _ => rest readsInside.body.tail
  let given := giveValue "a" (.initializeVariable .letKind "a") (.literal ⟨0, 0⟩ (.bool true))
  have ends : HoistingEnds {} readsInside globalScope (rest readsInside.body) m := .script (by rfl)
  have arrives : (rest readsInside.body).Arrives m (given.attempt (Exec.afterResult next)) m := by
    refine .look ?_
    show Exec.Arrives (execute _ _ >>= fun _ => rest readsInside.body.tail) m _ m
    rw [execute, declare_cons_eq_giveValue, bind_assoc, Exec.bind_eq_afterResult]
    exact .here _ m
  have gave : given.run m = (.ok (), (given.run m).2) := by rfl
  obtain ⟨t, later, frames, unbound⟩ : ∃ t ∈ (next ()).states (given.run m).2,
      t.stack.frames = [⟨"f", some 0, 1⟩, ⟨"Global", none, globalScope⟩] ∧
        t.scopes.binding? "a" 1 = none := by decide
  have reached := ((ends.arrives.trans arrives).trans (.of_run gave _)).states_suffix.mem later
  obtain ⟨-, every⟩ := variables_stay_initialized {} readsInside
  obtain ⟨-, -, -, read⟩ := every _ _ _ ends
  refine ⟨t, reached, by rw [Stack.names, frames]; rfl, ?_⟩
  refine read "a" _ _ _ m _ arrives (by rfl) gave t later [⟨"f", some 0, 1⟩] _ [] frames rfl ?_
  rintro other mem
  rw [List.mem_singleton.mp mem]
  exact unbound

end ScriptTrace
