import ScriptTrace.Ast.Basic
import ScriptTrace.Proofs.Derivations

/-!
# The parts of a program

Statements, declarations, expressions, properties and names are all parts of a program: each has a
stretch of the source, and parts of its own.  `Part` is a tree with just that, and with the label of
a part that is a name or that refers to a function.  A function is one part with the statement or
the expression that refers to it, and then its parts are its name, its parameters and the statements
of its body (`Part.children`).

## Layouts

While a syntax tree is built, functions go to the end of the array.  The invariant of that is
`Part.Layout source n a parts fs b`, for parts that were built between the offsets `a` and `b` when
`n` functions were in the array already, and that added the functions `fs`.

Of the places it says that the parts follow one another, and that they and the functions are well
placed in every program that has the new functions at their indices.  Of the numbering it says that
the new indices are referred to once each, by the parts or by a new function, that a function refers
only to earlier ones, and that the functions end one after the other.

Layouts are put together by three lemmas: layouts follow one another (`Part.Layout.append`), a part
is put around parts (`Part.Layout.wrap`), and a function is closed (`Part.Layout.close`).

* `Part`, `Expression.part`, `Statement.part`, `Program.parts`: the parts of a program.
* `Part.WellPlaced`: what the stretches of a part and of its children have to do with each other.
* `Part.references`, `Program.references`: the functions that are referred to.
* `Part.Layout`: the invariant.
-/

namespace ScriptTrace

open Peg (Row)

/-! ## Parts -/

/-- What a part of a program is, as far as its stretch goes. -/
inductive Label where
  /-- A name, spelled so. -/
  | name (name : String)
  /-- A function of the array, with the name that a statement declares it under. -/
  | function (id : FunctionId) (declared : Option Identifier)
  | other
  deriving DecidableEq, Repr

/-- A part of a program. -/
inductive Part where
  | mk (span : Span) (label : Label) (parts : List Part)

namespace Part

/-- The stretch of a part. -/
def span : Part → Span
  | mk s _ _ => s

/-- The label of a part. -/
def label : Part → Label
  | mk _ l _ => l

end Part

/-- A name as a part. -/
def Identifier.part (name : Identifier) : Part :=
  .mk name.span (.name name.name) []

mutual

/-- An expression as a part. -/
def Expression.part : Expression → Part
  | .literal span _ => .mk span .other []
  | .identifier name => name.part
  | .object span properties => .mk span .other (propertyParts properties)
  | .array span elements => .mk span .other (expressionParts elements)
  | .member span base property => .mk span .other [base.part, property.part]
  | .assignVariable span target value => .mk span .other [target.part, value.part]
  | .assignMember span targetSpan base property value =>
    .mk span .other [.mk targetSpan .other [base.part, property.part], value.part]
  | .call span callee arguments => .mk span .other (callee.part :: expressionParts arguments)
  | .function span id => .mk span (.function id none) []
  | .unary span _ operand => .mk span .other [operand.part]
  | .binary span _ left right => .mk span .other [left.part, right.part]

/-- Expressions as parts. -/
def expressionParts : List Expression → List Part
  | [] => []
  | e :: rest => e.part :: expressionParts rest

/-- Properties of an object literal as parts. -/
def propertyParts : List (Property Expression) → List Part
  | [] => []
  | ⟨span, _, value⟩ :: rest => .mk span .other [value.part] :: propertyParts rest

end

/-- A declared variable as a part. -/
def Declarator.part (d : Declarator) : Part :=
  .mk d.span .other (d.name.part :: d.init.toList.map Expression.part)

/-- A declaration as a part. -/
def Declaration.part (d : Declaration) : Part :=
  .mk d.span .other (d.declarators.map Declarator.part)

/-- What stands before the first semicolon in the head of a counting loop, as a part. -/
def LoopStart.part : LoopStart → Part
  | .declaration d => d.part
  | .expression e => e.part

mutual

/-- A statement as a part. -/
def Statement.part : Statement → Part
  | .functionDeclaration span name id => .mk span (.function id (some name)) []
  | .variables d => d.part
  | .expression span e => .mk span .other [e.part]
  | .block span body => .mk span .other (statementParts body)
  | .conditional span test consequent none => .mk span .other [test.part, consequent.part]
  | .conditional span test consequent (some alternate) =>
    .mk span .other [test.part, consequent.part, alternate.part]
  | .whileLoop span test body => .mk span .other [test.part, body.part]
  | .forLoop span start test update body =>
    .mk span .other (start.toList.map LoopStart.part ++ (test.toList.map Expression.part ++
      (update.toList.map Expression.part ++ [body.part])))
  | .returns span argument => .mk span .other (argument.toList.map Expression.part)
  | .empty span => .mk span .other []

/-- Statements as parts. -/
def statementParts : List Statement → List Part
  | [] => []
  | s :: rest => s.part :: statementParts rest

end

namespace FunctionDefinition

/-- The parts of a function: its name, its parameters and the statements of its body. -/
def parts (f : FunctionDefinition) : List Part :=
  f.name.toList.map Identifier.part ++ (f.parameters.map Identifier.part ++ statementParts f.body)

/-- A function of the array as a part. -/
def part (f : FunctionDefinition) (id : FunctionId) : Part :=
  .mk f.span (.function id none) []

end FunctionDefinition

/-! ## The parts of a whole program -/

namespace Part

variable {source : List Char} {functions : Array FunctionDefinition}

/-- The children of a part.  Those of a part that refers to a function are the parts of the
function. -/
def children (functions : Array FunctionDefinition) : Part → List Part
  | mk _ (.function id _) _ => functions[id]?.toList.flatMap FunctionDefinition.parts
  | mk _ _ parts => parts

/-- The first part is the second or stands below it. -/
inductive Within (functions : Array FunctionDefinition) : Part → Part → Prop
  | refl (part : Part) : Within functions part part
  | child {part child parent : Part} (mem : child ∈ parent.children functions)
      (inside : Within functions part child) : Within functions part parent

end Part

/-- The statements and the functions of a program. -/
def Program.parts (p : Program) : List Part :=
  statementParts p.body ++ p.functions.toList.mapIdx fun id f => f.part id

/-! ## Stretches -/

namespace Text

/-- The text of a stretch. -/
def slice (source : List Char) (span : Span) : List Char :=
  takeBytes (span.stop - span.start) (dropBytes span.start source)

/-- An offset at which no character is cut. -/
def IsBoundary (source : List Char) (offset : Nat) : Prop :=
  ∃ before after, source = before ++ after ∧ offset = byteLength before

theorem IsBoundary.le {source : List Char} {offset : Nat} (h : IsBoundary source offset) :
    offset ≤ byteLength source := by
  obtain ⟨before, after, rfl, rfl⟩ := h
  rw [byteLength_append]
  omega

end Text

namespace Part

variable {source : List Char} {functions : Array FunctionDefinition} {part : Part}

/-- Parts that follow one another between two offsets. -/
abbrev InRow : Nat → List Part → Nat → Prop :=
  Row (fun part => part.span.start) fun part => part.span.stop

/-- A part whose stretch is one of the source, with its children inside in their order, with the
source spelling its name, and with the function that it refers to. -/
structure WellPlaced (source : List Char) (functions : Array FunctionDefinition) (part : Part) :
    Prop where
  ordered : part.span.start ≤ part.span.stop
  inSource : part.span.stop ≤ Text.byteLength source
  startsBetween : Text.IsBoundary source part.span.start
  stopsBetween : Text.IsBoundary source part.span.stop
  nested : ∀ child ∈ part.children functions,
    part.span.start ≤ child.span.start ∧ child.span.stop ≤ part.span.stop
  apart : (part.children functions).Pairwise fun a b => a.span.stop ≤ b.span.start
  spelled : ∀ name, part.label = .name name → name.toList = Text.slice source part.span
  found : ∀ id declared, part.label = .function id declared →
    ∃ f, functions[id]? = some f ∧ f.span = part.span ∧
      ∀ name, declared = some name → f.name = some name

/-- The places of the children follow from their being in a row. -/
theorem WellPlaced.ofRow
    (row : InRow part.span.start (part.children functions) part.span.stop)
    (starts : Text.IsBoundary source part.span.start)
    (stops : Text.IsBoundary source part.span.stop)
    (spelled : ∀ name, part.label = .name name → name.toList = Text.slice source part.span)
    (found : ∀ id declared, part.label = .function id declared →
      ∃ f, functions[id]? = some f ∧ f.span = part.span ∧
        ∀ name, declared = some name → f.name = some name) :
    part.WellPlaced source functions where
  ordered := row.le
  inSource := stops.le
  startsBetween := starts
  stopsBetween := stops
  nested := row.between
  apart := row.pairwise
  spelled := spelled
  found := found

/-- A part that is well placed with all the parts below it. -/
def Deep (source : List Char) (functions : Array FunctionDefinition) (part : Part) : Prop :=
  ∀ below : Part, below.Within functions part → below.WellPlaced source functions

theorem Deep.intro (own : part.WellPlaced source functions)
    (each : ∀ child ∈ part.children functions, child.Deep source functions) :
    part.Deep source functions := by
  intro below inside
  cases inside with
  | refl => exact own
  | child mem inside => exact each _ mem below inside

end Part

/-! ## References -/

/-- The function that a label refers to. -/
def Label.references : Label → List FunctionId
  | .function id _ => [id]
  | .name _ | .other => []

mutual

/-- The functions that a part refers to, itself or below. -/
def Part.references : Part → List FunctionId
  | .mk _ label parts => label.references ++ referencesIn parts

/-- The functions that parts refer to. -/
def referencesIn : List Part → List FunctionId
  | [] => []
  | part :: rest => part.references ++ referencesIn rest

end

/-- The functions that the body of a function refers to. -/
def FunctionDefinition.references (f : FunctionDefinition) : List FunctionId :=
  referencesIn (statementParts f.body)

/-- The functions that a program refers to, in its statements and in the bodies of its functions. -/
def Program.references (p : Program) : List FunctionId :=
  referencesIn (statementParts p.body) ++ p.functions.toList.flatMap FunctionDefinition.references

@[simp] theorem referencesIn_append (xs ys : List Part) :
    referencesIn (xs ++ ys) = referencesIn xs ++ referencesIn ys := by
  induction xs with
  | nil => rfl
  | cons part rest ih => simp only [List.cons_append, referencesIn, ih, List.append_assoc]

theorem referencesIn_names (names : List Identifier) :
    referencesIn (names.map Identifier.part) = [] := by
  induction names with
  | nil => rfl
  | cons name rest ih =>
    rw [List.map_cons, referencesIn, ih]
    rfl

/-- Names refer to nothing. -/
theorem FunctionDefinition.referencesIn_parts (f : FunctionDefinition) :
    referencesIn f.parts = f.references := by
  rw [parts, referencesIn_append, referencesIn_append, referencesIn_names, referencesIn_names]
  rfl

/-! ## Layouts -/

/-- Functions that an array has from an index on. -/
def Has (functions : Array FunctionDefinition) (n : Nat) (fs : List FunctionDefinition) : Prop :=
  ∀ i f, fs[i]? = some f → functions[n + i]? = some f

namespace Has

variable {functions : Array FunctionDefinition} {n : Nat} {fs gs : List FunctionDefinition}

theorem left (h : Has functions n (fs ++ gs)) : Has functions n fs := by
  intro i f found
  refine h i f ?_
  obtain ⟨lt, -⟩ := List.getElem?_eq_some_iff.mp found
  rwa [List.getElem?_append_left lt]

theorem right (h : Has functions n (fs ++ gs)) : Has functions (n + fs.length) gs := by
  intro i f found
  rw [Nat.add_assoc]
  refine h (fs.length + i) f ?_
  rwa [List.getElem?_append_right (Nat.le_add_right _ _), Nat.add_sub_cancel_left]

end Has

/-- Parts between two offsets, and the functions that were added for them to an array of `n`
functions. -/
structure Part.Layout (source : List Char) (n a : Nat) (parts : List Part)
    (fs : List FunctionDefinition) (b : Nat) : Prop where
  row : Part.InRow a parts b
  placed : ∀ functions, Has functions n fs → ∀ part ∈ parts, part.Deep source functions
  functionsPlaced : ∀ functions, Has functions n fs →
    ∀ (i : Nat) (f : FunctionDefinition), fs[i]? = some f →
      (f.part (n + i)).Deep source functions
  numbered : (referencesIn parts ++ fs.flatMap FunctionDefinition.references).Perm
    (List.range' n fs.length)
  earlier : ∀ (i : Nat) (f : FunctionDefinition), fs[i]? = some f →
    ∀ id ∈ f.references, id < n + i
  rising : fs.Pairwise fun f g => f.span.stop < g.span.stop
  inside : ∀ f ∈ fs, a < f.span.stop ∧ f.span.stop ≤ b

namespace Part.Layout

variable {source : List Char} {n a b c d : Nat} {parts more : List Part}
  {fs gs : List FunctionDefinition}

theorem nil (le : a ≤ b) : Layout source n a [] [] b where
  row := le
  placed _ _ := List.forall_mem_nil _
  functionsPlaced _ _ _ _ found := nomatch found
  numbered := .refl []
  earlier _ _ found := nomatch found
  rising := .nil
  inside := List.forall_mem_nil _

theorem widen (h : Layout source n b parts fs c) (before : a ≤ b) (after : c ≤ d) :
    Layout source n a parts fs d where
  row := h.row.widen before after
  placed := h.placed
  functionsPlaced := h.functionsPlaced
  numbered := h.numbered
  earlier := h.earlier
  rising := h.rising
  inside f mem := by
    have inside := h.inside f mem
    omega

/-- Something that holds of the functions of two lists, with their indices. -/
theorem forall_getElem?_append {P : Nat → FunctionDefinition → Prop}
    (first : ∀ i f, fs[i]? = some f → P (n + i) f)
    (second : ∀ i f, gs[i]? = some f → P (n + fs.length + i) f) (i : Nat) (f : FunctionDefinition)
    (found : (fs ++ gs)[i]? = some f) : P (n + i) f := by
  by_cases lt : i < fs.length
  · rw [List.getElem?_append_left lt] at found
    exact first i f found
  · obtain ⟨j, rfl⟩ := Nat.exists_eq_add_of_le (Nat.le_of_not_lt lt)
    rw [List.getElem?_append_right (Nat.le_add_right _ _), Nat.add_sub_cancel_left] at found
    rw [← Nat.add_assoc]
    exact second j f found

theorem forall_getElem?_concat {P : Nat → FunctionDefinition → Prop} {f : FunctionDefinition}
    (first : ∀ i f, fs[i]? = some f → P (n + i) f) (last : P (n + fs.length) f) (i : Nat)
    (g : FunctionDefinition) (found : (fs ++ [f])[i]? = some g) : P (n + i) g := by
  refine forall_getElem?_append first (fun j g found => ?_) i g found
  cases j with
  | zero =>
    obtain rfl := Option.some.inj found
    exact last
  | succ j => exact nomatch found

/-- **Layouts follow one another.** -/
theorem append (first : Layout source n a parts fs b)
    (second : Layout source (n + fs.length) b more gs c) :
    Layout source n a (parts ++ more) (fs ++ gs) c where
  row := first.row.append second.row
  placed functions has := List.forall_mem_append.mpr
    ⟨first.placed functions has.left, second.placed functions has.right⟩
  functionsPlaced functions has :=
    forall_getElem?_append (P := fun id f => (f.part id).Deep source functions)
      (first.functionsPlaced functions has.left) (second.functionsPlaced functions has.right)
  numbered := by
    rw [List.length_append, List.range'_append_1.symm, referencesIn_append, List.flatMap_append]
    refine .trans ?_ (first.numbered.append second.numbered)
    simp only [List.append_assoc]
    refine .append_left _ ?_
    simp only [← List.append_assoc]
    exact .append_right _ List.perm_append_comm
  earlier := forall_getElem?_append (P := fun id f => ∀ other ∈ f.references, other < id)
    first.earlier second.earlier
  rising := by
    refine List.pairwise_append.mpr ⟨first.rising, second.rising, fun f mem g mem' => ?_⟩
    have before := first.inside f mem
    have after := second.inside g mem'
    omega
  inside := by
    have before := first.row.le
    have after := second.row.le
    refine List.forall_mem_append.mpr ⟨fun f mem => ?_, fun f mem => ?_⟩
    · have inside := first.inside f mem
      omega
    · have inside := second.inside f mem
      omega

/-- **A part is put around parts.** -/
theorem wrap (span : Span) (h : Layout source n span.start parts fs span.stop)
    (starts : Text.IsBoundary source span.start) (stops : Text.IsBoundary source span.stop) :
    Layout source n span.start [.mk span .other parts] fs span.stop where
  row := ⟨Nat.le_refl _, h.row.le, Nat.le_refl _⟩
  placed functions has := by
    refine List.forall_mem_singleton.mpr (.intro ?_ (h.placed functions has))
    exact .ofRow h.row starts stops nofun nofun
  functionsPlaced := h.functionsPlaced
  numbered := by
    rw [referencesIn, referencesIn, List.append_nil]
    exact h.numbered
  earlier := h.earlier
  rising := h.rising
  inside := h.inside

/-- A name. -/
theorem name (name : Identifier) (ordered : name.span.start ≤ name.span.stop)
    (starts : Text.IsBoundary source name.span.start)
    (stops : Text.IsBoundary source name.span.stop)
    (spelled : name.name.toList = Text.slice source name.span) :
    Layout source n name.span.start [name.part] [] name.span.stop where
  row := ⟨Nat.le_refl _, ordered, Nat.le_refl _⟩
  placed functions _ := by
    refine List.forall_mem_singleton.mpr (.intro ?_ (List.forall_mem_nil _))
    refine .ofRow ordered starts stops ?_ nofun
    rintro _ ⟨⟩
    exact spelled
  functionsPlaced _ _ _ _ found := nomatch found
  numbered := .refl []
  earlier _ _ found := nomatch found
  rising := .nil
  inside := List.forall_mem_nil _

/-- A function is one part with whatever refers to it. -/
theorem deep_function {f : FunctionDefinition} {id : FunctionId} {declared : Option Identifier}
    {functions : Array FunctionDefinition} (row : Part.InRow f.span.start f.parts f.span.stop)
    (starts : Text.IsBoundary source f.span.start) (stops : Text.IsBoundary source f.span.stop)
    (each : ∀ part ∈ f.parts, part.Deep source functions) (found : functions[id]? = some f)
    (named : ∀ name, declared = some name → f.name = some name) :
    (Part.mk f.span (.function id declared) []).Deep source functions := by
  have children : (Part.mk f.span (.function id declared) []).children functions = f.parts := by
    rw [Part.children, found]
    exact List.flatMap_singleton ..
  refine .intro (.ofRow ?_ starts stops nofun ?_) ?_
  · rw [children]
    exact row
  · rintro _ _ ⟨⟩
    exact ⟨f, found, rfl, named⟩
  · rwa [children]

/-- **A function is closed**: it goes to the array after the functions of its body, and ends after
all of them. -/
theorem close {f : FunctionDefinition} {declared : Option Identifier}
    (h : Layout source n f.span.start f.parts fs b) (ends : b < f.span.stop)
    (starts : Text.IsBoundary source f.span.start) (stops : Text.IsBoundary source f.span.stop)
    (named : ∀ name, declared = some name → f.name = some name) :
    Layout source n f.span.start [.mk f.span (.function (n + fs.length) declared) []] (fs ++ [f])
      f.span.stop := by
  have row := h.row.widen (Nat.le_refl _) (Nat.le_of_lt ends)
  have deep (functions : Array FunctionDefinition) (has : Has functions n (fs ++ [f]))
      (declared : Option Identifier) :
      (∀ name, declared = some name → f.name = some name) →
        (Part.mk f.span (.function (n + fs.length) declared) []).Deep source functions :=
    deep_function row starts stops (h.placed functions has.left) (has.right 0 f rfl)
  -- Nothing below the function is numbered after the functions of its body.
  have below : ∀ id ∈ f.references, id < n + fs.length := by
    intro id mem
    rw [← f.referencesIn_parts] at mem
    have listed := h.numbered.mem_iff.mp (List.mem_append_left _ mem)
    exact (List.mem_range'_1.mp listed).2
  exact {
    row := ⟨Nat.le_refl _, row.le, Nat.le_refl _⟩
    placed := fun functions has => List.forall_mem_singleton.mpr (deep functions has _ named)
    functionsPlaced := fun functions has =>
      forall_getElem?_concat (P := fun id f => (f.part id).Deep source functions)
        (h.functionsPlaced functions has.left) (deep functions has none nofun)
    numbered := by
      rw [List.length_append, List.length_singleton, List.range'_1_concat, List.flatMap_append,
        List.flatMap_singleton, ← f.referencesIn_parts]
      refine .trans ?_ (h.numbered.append_right [n + fs.length])
      simp only [referencesIn, Part.references, Label.references, List.append_nil,
        List.singleton_append]
      refine .trans (.cons _ List.perm_append_comm) ?_
      exact (List.perm_append_singleton _ _).symm
    earlier := forall_getElem?_concat (P := fun id f => ∀ other ∈ f.references, other < id)
      h.earlier below
    rising := by
      refine List.pairwise_append.mpr ⟨h.rising, List.pairwise_singleton _ _, ?_⟩
      intro g mem f' mem'
      have inside := h.inside g mem
      rw [List.mem_singleton.mp mem']
      omega
    inside := by
      have le := h.row.le
      refine List.forall_mem_append.mpr ⟨fun g mem => ?_, List.forall_mem_singleton.mpr (by omega)⟩
      have inside := h.inside g mem
      omega }

end Part.Layout

end ScriptTrace
