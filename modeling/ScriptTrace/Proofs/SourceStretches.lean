import ScriptTrace.Parse
import ScriptTrace.Proofs.SourceLayout

/-!
# The stretches and the functions of a parsed script

A script is built with an empty array of functions, so the functions of the layout of its statements
are all the functions of the program, and what a layout says of the indices from `n` on it says of
all indices.

The stretches of the statements are those of their nodes, and what lies between the nodes was
skipped.

* `layout_of_parseScript`: the layout of a program.
* `parseScript_declaresBelow`: the functions that a script declares are in its array.
* `parsed_parts_wellPlaced`: where the parts of a program stand in its source, and what stands
  outside of its statements.
* `parsed_functions_ordered`: how its functions are numbered.
-/

namespace ScriptTrace

open Peg (Node)
open ScriptTrace.Language (grammar)

variable {source : String} {program : Program}

/-! ## The layout of a program -/

/-- A parsed script was matched, and its program was built from the first node of the match. -/
theorem exists_node_of_parseScript (parsed : parseScript source = .ok program) :
    ∃ node rest q, (grammar.read .script source.toList).1 = .matched (node :: rest) q ∧
      buildStatements node.children #[] = .ok (program.body, program.functions) := by
  unfold parseScript parseRule at parsed
  split at parsed
  · rename_i nodes q log matched
    match nodes with
    | [] => exact nomatch parsed
    | node :: rest =>
      refine ⟨node, rest, q, by rw [matched], ?_⟩
      change (Program.ofNode node).mapError ParseError.unbuildable = .ok program at parsed
      rw [Program.ofNode] at parsed
      cases built : (buildStatements node.children).run #[] with
      | error error =>
        rw [built] at parsed
        exact nomatch parsed
      | ok p =>
        rw [built] at parsed
        cases parsed
        exact built
  · exact nomatch parsed

/-- The nodes of a whole script. -/
theorem planted_script {node : Node Rule} {rest : List (Node Rule)} {q : Peg.Place}
    {source : List Char} (matched : (grammar.read .script source).1 = .matched (node :: rest) q) :
    Planted source node.start node.children node.stop := by
  have start : Peg.Place.Of source ⟨0, source⟩ := ⟨[], .refl _⟩
  have grown := (Peg.Grammar.matches_of_read matched).grown start node List.mem_cons_self
  exact (ripe_of_grown grown).planted

/-- **The layout of a parsed script.** -/
theorem layout_of_parseScript (parsed : parseScript source = .ok program) :
    ∃ a b, Part.Layout source.toList 0 a (statementParts program.body) program.functions.toList
      b := by
  obtain ⟨node, rest, q, matched, built⟩ := exists_node_of_parseScript parsed
  obtain ⟨new, added, layout⟩ := laid_buildStatements _ (planted_script matched) built
  refine ⟨node.start, node.stop, ?_⟩
  rw [added]
  exact layout

/-! ## The indices of declared functions -/

/-- If a statement declares a function, its index is below `n`. -/
def Statement.DeclaresBelow (n : Nat) (s : Statement) : Prop :=
  ∀ span name id, s = .functionDeclaration span name id → id < n

theorem mem_referencesIn_of_mem {id : FunctionId} {s : Statement} {body : List Statement}
    (mem : s ∈ body) (refers : id ∈ s.part.references) :
    id ∈ referencesIn (statementParts body) := by
  induction body with
  | nil => exact nomatch mem
  | cons first rest ih =>
    rw [statementParts, referencesIn, List.mem_append]
    rcases List.mem_cons.mp mem with rfl | mem
    · exact Or.inl refers
    · exact Or.inr (ih mem)

/-- **The functions that a parsed script declares are functions of the program.** -/
theorem parseScript_declaresBelow (parsed : parseScript source = .ok program) :
    ∀ s ∈ program.body, s.DeclaresBelow program.functions.size := by
  rintro _ mem span name id rfl
  obtain ⟨a, b, layout⟩ := layout_of_parseScript parsed
  have refers : id ∈ referencesIn (statementParts program.body) :=
    mem_referencesIn_of_mem mem List.mem_cons_self
  have listed := layout.numbered.mem_iff.mp (List.mem_append_left _ refers)
  rw [List.mem_range'_1, Nat.zero_add] at listed
  exact listed.2

/-! ## The stretches of statements -/

/-- Statements have the stretches of their nodes; the node for the end of the text has none. -/
theorem spans_of_buildStatements {a b : Nat} {source : List Char} {nodes : List (Node Rule)}
    {last : Node Rule} {body : List Statement} {fs fs' : Array FunctionDefinition}
    (planted : Planted source a nodes b) (others : ∀ node ∈ nodes, node.rule ≠ .endOfInput)
    (ends : last.rule = .endOfInput)
    (built : buildStatements (nodes ++ [last]) fs = .ok (body, fs')) :
    body.map Statement.span = nodes.map nodeSpan := by
  induction nodes generalizing a fs body with
  | nil =>
    obtain ⟨rule, start, stop, text, children⟩ := last
    obtain rfl : rule = .endOfInput := ends
    rw [List.nil_append, buildStatements, buildStatements] at built
    cases built
    rfl
  | cons node rest ih =>
    obtain ⟨before, ripe, further⟩ := planted.cons
    obtain ⟨ne, others⟩ := List.forall_mem_cons.mp others
    rw [List.cons_append, buildStatements] at built
    · obtain ⟨s, fs₁, first, built⟩ := Build.run_bind_eq_ok built
      obtain ⟨more, fs₂, second, built⟩ := Build.run_bind_eq_ok built
      cases built
      rw [List.map_cons, List.map_cons, (ripe.laid first).2, ih further others second]
    · rintro start stop text children rfl
      exact ne rfl

/-! ## Stretches and functions -/

/-- **Every part of a parsed program is well placed in the source**: its stretch is one of the
source and has no half characters, its children stand inside it one after the other, the source
spells its name, and the function that it refers to has its stretch.  Outside of the statements of
the script there are only blanks and comments. -/
theorem parsed_parts_wellPlaced (parsed : parseScript source = .ok program) :
    (∀ root ∈ program.parts, ∀ part : Part, part.Within program.functions root →
      part.WellPlaced source.toList program.functions) ∧
    Text.Spaced 0 source.toList (program.body.map Statement.span) := by
  constructor
  · obtain ⟨a, b, layout⟩ := layout_of_parseScript parsed
    have has : Has program.functions 0 program.functions.toList := by
      intro i f found
      rwa [Nat.zero_add, ← Array.getElem?_toList]
    rw [Program.parts]
    refine List.forall_mem_append.mpr ⟨layout.placed _ has, fun root mem => ?_⟩
    obtain ⟨id, found⟩ := List.mem_iff_getElem?.mp mem
    rw [List.getElem?_mapIdx, Option.map_eq_some_iff] at found
    obtain ⟨f, found, rfl⟩ := found
    have deep := layout.functionsPlaced _ has id f found
    rwa [Nat.zero_add] at deep
  · obtain ⟨node, rest, q, matched, built⟩ := exists_node_of_parseScript parsed
    have planted := planted_script matched
    obtain ⟨stop, text, statements, last, nodes, ends, others, spaced⟩ :=
      Language.spaced_of_script (Peg.Grammar.matches_of_read matched)
    obtain ⟨rfl, rfl⟩ := List.cons.inj nodes
    obtain ⟨b, front, -⟩ := planted.split
    rwa [spans_of_buildStatements front others ends built]

/-- A script with a comment of two-byte characters, a name in parentheses and a function, and with
a comment where a semicolon could be. -/
def bracketedScript : String :=
  "/*é*/(f).y=function(a)\x7b\x7d //"

/-- The only statement has no semicolon, and takes the comment that was skipped in search of one. -/
theorem wellPlaced_bracketedScript :
    ∃ program, parseScript bracketedScript = .ok program ∧
      program.body.map Statement.span = [⟨6, 28⟩] ∧
      (∀ root ∈ program.parts, ∀ part : Part, part.Within program.functions root →
        part.WellPlaced bracketedScript.toList program.functions) ∧
      Text.Spaced 0 bracketedScript.toList (program.body.map Statement.span) := by
  obtain ⟨program, parsed, spans⟩ := exists_ok_of_toOption_map (by decide +kernel :
    (parseScript bracketedScript).toOption.map (fun program => program.body.map Statement.span) =
      some [⟨6, 28⟩])
  exact ⟨program, parsed, spans, parsed_parts_wellPlaced parsed⟩

/-- **The functions of a parsed program are numbered in the order in which they end**: every index
is referred to exactly once, in a statement of the script or in the body of a function, and nothing
else is; the body of a function refers to earlier functions only; and a later function ends later
in the source. -/
theorem parsed_functions_ordered (parsed : parseScript source = .ok program) :
    program.references.Perm (List.range program.functions.size) ∧
    (∀ (i : FunctionId) (f : FunctionDefinition), program.functions[i]? = some f →
      ∀ id ∈ f.references, id < i) ∧
    ∀ (i j : FunctionId) (f g : FunctionDefinition), i < j → program.functions[i]? = some f →
      program.functions[j]? = some g → f.span.stop < g.span.stop := by
  obtain ⟨a, b, layout⟩ := layout_of_parseScript parsed
  simp only [← Array.getElem?_toList]
  refine ⟨?_, fun i f found id mem => ?_, fun i j f g lt first second => ?_⟩
  · rw [List.range_eq_range', ← Array.length_toList]
    exact layout.numbered
  · have earlier := layout.earlier i f found id mem
    rwa [Nat.zero_add] at earlier
  · obtain ⟨_, rfl⟩ := List.getElem?_eq_some_iff.mp first
    obtain ⟨_, rfl⟩ := List.getElem?_eq_some_iff.mp second
    exact List.pairwise_iff_getElem.mp layout.rising i j _ _ lt

/-- A script with a function in a statement that never runs, inside of a function. -/
def nestedScript : String :=
  "function f()\x7bif(g)function()\x7b\x7d\x7d"

/-- The statement of the script refers to the outer function, and this one to the inner. -/
theorem functions_ordered_nestedScript :
    ∃ program, parseScript nestedScript = .ok program ∧
      program.references = [1, 0] ∧ program.references.Perm (List.range 2) ∧
      (∀ (i : FunctionId) (f : FunctionDefinition), program.functions[i]? = some f →
        ∀ id ∈ f.references, id < i) ∧
      ∀ (i j : FunctionId) (f g : FunctionDefinition), i < j → program.functions[i]? = some f →
        program.functions[j]? = some g → f.span.stop < g.span.stop := by
  obtain ⟨program, parsed, found⟩ := exists_ok_of_toOption_map (by decide +kernel :
    (parseScript nestedScript).toOption.map
      (fun program => (program.references, program.functions.size)) = some ([1, 0], 2))
  obtain ⟨references, size⟩ := Prod.mk.inj found
  obtain ⟨perm, others⟩ := parsed_functions_ordered parsed
  rw [size] at perm
  exact ⟨program, parsed, references, perm, others⟩

end ScriptTrace
