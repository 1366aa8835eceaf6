import ScriptTrace.Ast.Describe
import ScriptTrace.Proofs.NamesInPrograms
import ScriptTrace.Proofs.OperatorChains

/-!
# The paths of properties

A property of a name, or of such a property, has a dotted path, and steps name it by this path.  The
path is not the text that the property was read from: parentheses, comments and blanks are left out.
It is still a text of the language, and it is read as the property that it names.  So two properties
with the same path are the same, and since no other description of an expression looks like the path
of a property, a step that names a property by its path leaves no doubt which one is meant.

## How a path is read

A path is a name with the names of properties after it, each behind a full stop.  The first name is
an operand.  No rule that is tried before the one for names takes it, since all these begin with a
reserved word or with a character that begins no name, and it is not reserved itself.  The names of
properties may be reserved: behind a full stop nothing but the rule for property names is tried.
Each name ends where the full stop after it begins, or where the path ends.

The expression and its path grow at their ends, while the path is read from its beginning.  Both
are compared with a third form: the name with a list of properties (`withProperties`, `writePath`).

* `Expression.IsChain`: the expressions that have a path.
* `exists_spelling_of_isChain`: a chain as a name with properties.
* `Language.takes_properties`, `takes_path`: how a path is matched.
* `stopsAt_buildSuffixes_of_properties`: how it is built.
* `exists_parse_of_path?`, `path?_eq_iff`: a path is read as the expression that it was made from,
  and so it belongs to no other.
* `PathLike`, `not_pathLike_describe`: what tells the path of a property from other descriptions.
* `memberPaths_name_properties`: the result for the properties in parsed programs.
-/

namespace ScriptTrace

open Peg Pattern ScriptTrace.Language

/-! ## Chains -/

/-- A name, or a property of a chain. -/
inductive Expression.IsChain : Expression → Prop
  | name (name : Identifier) : IsChain (.identifier name)
  | member {base : Expression} (span : Span) (property : Identifier) (chain : IsChain base) :
      IsChain (.member span base property)

section Chains

variable {base : Expression}

theorem path?_member (span : Span) (property : Identifier) :
    (Expression.member span base property).path? =
      base.path?.map fun path => path ++ "." ++ property.name := by
  rw [Expression.path?]

/-- **Chains are the expressions that have a path.** -/
theorem exists_path_iff_isChain (e : Expression) : (∃ path, e.path? = some path) ↔ e.IsChain := by
  induction e using Expression.path?.induct with
  | case1 name => exact ⟨fun _ => .name name, fun _ => ⟨name.name, by rw [Expression.path?]⟩⟩
  | case2 span base property ih =>
    rw [path?_member]
    constructor
    · rintro ⟨_, found⟩
      obtain ⟨path, ofBase, -⟩ := Option.map_eq_some_iff.mp found
      exact .member span property (ih.mp ⟨path, ofBase⟩)
    · rintro (_ | ⟨_, _, chain⟩)
      obtain ⟨path, ofBase⟩ := ih.mpr chain
      exact ⟨_, by rw [ofBase, Option.map_some]⟩
  | case3 e noName noMember =>
    constructor
    · rintro ⟨_, found⟩
      rw [Expression.path?] at found
      · simp at found
      · exact noName
      · exact noMember
    · intro chain
      cases chain with
      | name name => exact absurd rfl (noName name)
      | member span property _ => exact absurd rfl (noMember span _ property)

/-- A path does not depend on where an expression stands. -/
theorem path?_unplaced (e : Expression) : e.unplaced.path? = e.path? := by
  induction e using Expression.path?.induct with
  | case1 name => rfl
  | case2 span base property ih => simp only [Expression.unplaced_member, path?_member, ih]
  | case3 e noName noMember =>
    cases e with
    | identifier name => exact absurd rfl (noName name)
    | member span base property => exact absurd rfl (noMember span base property)
    | _ => simp [Expression.path?]

end Chains

/-! ## Names with properties -/

/-- An expression with properties after it, in the order in which they are read. -/
def withProperties (base : Expression) (properties : List Identifier) : Expression :=
  properties.foldl (fun base property => .member ⟨0, 0⟩ base property) base

/-- Properties as they stand in a path. -/
def writeProperties (properties : List Identifier) : List Char :=
  properties.flatMap fun property => '.' :: property.name.toList

/-- A name with properties after it as a path. -/
def writePath (name : Identifier) (properties : List Identifier) : List Char :=
  name.name.toList ++ writeProperties properties

/-- One more property at the end of a path. -/
theorem writePath_concat (name : Identifier) (properties : List Identifier)
    (property : Identifier) :
    String.ofList (writePath name (properties ++ [property])) =
      String.ofList (writePath name properties) ++ "." ++ property.name := by
  have further : writePath name (properties ++ [property]) =
      writePath name properties ++ ".".toList ++ property.name.toList := by
    rw [writePath, writeProperties, List.flatMap_append, List.flatMap_singleton, ← writeProperties,
      ← List.append_assoc, ← writePath, List.append_cons]
    rfl
  rw [further, String.ofList_append, String.ofList_append, String.ofList_toList,
    String.ofList_toList]

/-- A name with properties is spelled in a way that it can be read. -/
structure Spelled (name : Identifier) (properties : List Identifier) : Prop where
  isName : isName name.name.toList = true
  free : name.name ∉ reservedWords
  each : ∀ property ∈ properties, ScriptTrace.isName property.name.toList = true

/-- **A chain is a name with properties**, and its path is written so. -/
theorem exists_spelling_of_isChain {e : Expression} (chain : e.IsChain) (named : e.IsWellNamed) :
    ∃ name properties, Spelled name properties ∧
      e.unplaced = (withProperties (.identifier name) properties).unplaced ∧
      e.path? = some (String.ofList (writePath name properties)) := by
  induction chain with
  | name name =>
    refine ⟨name, [], ⟨named.1, named.2, List.forall_mem_nil _⟩, rfl, ?_⟩
    rw [Expression.path?, writePath, writeProperties, List.flatMap_nil, List.append_nil,
      String.ofList_toList]
  | @member base span property _ ih =>
    obtain ⟨name, properties, spelled, same, path⟩ := ih named.1
    refine ⟨name, properties ++ [property], ⟨spelled.isName, spelled.free, ?_⟩, ?_, ?_⟩
    · exact List.forall_mem_append.mpr ⟨spelled.each, List.forall_mem_singleton.mpr named.2⟩
    · rw [withProperties, List.foldl_concat, ← withProperties,
        Expression.unplaced_member, Expression.unplaced_member, same]
    · rw [path?_member, path, Option.map_some, writePath_concat]

/-! ## How a path is matched -/

namespace Language

variable {name : Identifier} {properties : List Identifier} {w rest : List Char}

/-- The rest of a path ends a name. -/
theorem endsName_writeProperties (properties : List Identifier) :
    EndsName (writeProperties properties) := by
  cases properties with
  | nil => exact fun c none => nomatch none
  | cons property properties =>
    intro c head
    obtain rfl := Option.some.inj head
    decide

/-- A rule for reserved words refuses a name that is not reserved. -/
theorem Keyword.refuses_of_isName (k : Keyword) (isName : isName w = true)
    (free : String.ofList w ∉ reservedWords) (ends : EndsName rest) :
    grammar.Refuses .free (.rule k.rule) (w ++ rest) := by
  refine .rule ?_
  rw [k.kind, k.body]
  refine refuses_reserved k.reserved fun listed => free ?_
  rw [leadingName_append isName ends] at listed
  exact k.reserved listed

/-- A name that is not reserved is taken as a name. -/
theorem takes_identifier (isName : isName w = true) (free : String.ofList w ∉ reservedWords)
    (ends : EndsName rest) :
    grammar.Takes .free (.rule .identifier) (w ++ rest) rest (LeafOf .identifier w) := by
  have admitted : admits .identifier w = true := by
    rw [admits, List.isEmpty_eq_false_iff.mpr (ne_nil_of_isName isName), List.contains_eq_mem,
      decide_eq_false free]
    rfl
  exact takes_leaf (takes_nameRule (by decide) isName ends admitted) (by decide)

/-- A property of a path. -/
abbrev IsDotProperty (property : Identifier) : Node Rule → Prop :=
  NodeOf .dotProperty (LeafOf .identifierName property.name.toList)

/-- A property is taken whatever its name is, up to the next one. -/
theorem takes_property {property : Identifier} (isName : isName property.name.toList = true)
    (ends : EndsName rest) :
    grammar.Takes .free suffix ('.' :: (property.name.toList ++ rest)) rest
      (Single (IsDotProperty property)) := by
  have admitted : admits .identifierName property.name.toList = true := by
    rw [admits, List.isEmpty_eq_false_iff.mpr (ne_nil_of_isName isName)]
    rfl
  have taken : grammar.Takes .free (.rule .identifierName) _ rest _ :=
    takes_leaf (takes_nameRule (by decide) isName ends admitted) (by decide)
  have quiet : grammar.Quiet .free (property.name.toList ++ rest) :=
    quiet_of_takes (by decide) taken
  exact (takes_node .dotProperty rfl ((takes_sign '.' _).seq quiet taken
    fun _ _ => append_of_nil_left)).choice _

/-- The properties of a path, where one was taken before: blanks would be skipped, and there are
none. -/
theorem takesMore_properties
    (each : ∀ property ∈ properties, isName property.name.toList = true) :
    grammar.TakesMore .free suffix (writeProperties properties) []
      (List.Forall₂ IsDotProperty properties) := by
  induction properties with
  | nil =>
    have closes := closes_of_isEnd (.inl rfl)
    intro offset
    obtain ⟨_, stop, rfl, gives⟩ := closes.noSuffix.takesMore closes.quiet offset
    exact ⟨[], stop, .nil, gives⟩
  | cons property properties ih =>
    obtain ⟨own, others⟩ := List.forall_mem_cons.mp each
    exact (takes_property own (endsName_writeProperties properties)).takesMore
      (quiet_sign (by decide) _) (ih others) fun _ _ => forall₂_append_single

/-- The properties of a path are taken one after another. -/
theorem takes_properties (each : ∀ property ∈ properties, isName property.name.toList = true) :
    grammar.Takes .free (.many suffix) (writeProperties properties) []
      (List.Forall₂ IsDotProperty properties) := by
  cases properties with
  | nil =>
    have closes := closes_of_isEnd (.inl rfl)
    exact closes.noSuffix.takes_many.mono fun nodes none => none ▸ .nil
  | cons property properties =>
    obtain ⟨own, others⟩ := List.forall_mem_cons.mp each
    exact (takes_property own (endsName_writeProperties properties)).many
      (takesMore_properties others) fun _ _ => forall₂_append_single

end Language

/-! ## How a path is built -/

/-- Properties after an expression are built as such. -/
theorem stopsAt_buildSuffixes_of_properties {properties : List Identifier}
    {nodes : List (Node Rule)} (each : List.Forall₂ IsDotProperty properties nodes)
    {base base' : Expression} (same : base'.unplaced = base.unplaced) :
    (buildSuffixes base' nodes).StopsAt [] fun built =>
      built.unplaced = (withProperties base properties).unplaced := by
  -- each property becomes part of the expression that stands before the next one
  induction each generalizing base base' with
  | nil =>
    rw [buildSuffixes]
    exact .pure same
  | cons own _ ih =>
    obtain ⟨a, b, text, _, rfl, c, d, ks, rfl⟩ := own
    rw [buildSuffixes, withProperties]
    refine ih ?_
    simp only [Expression.unplaced_member, same, buildIdentifier, Node.text, String.ofList_toList]

/-- The node of an operand with properties after it. -/
theorem readAs_withProperties {base : Expression} {properties : List Identifier} {node : Node Rule}
    (h : NodeOf .memberExpression (fun nodes => ∃ operand suffixes, nodes = operand :: suffixes ∧
      ReadAs base operand ∧ List.Forall₂ IsDotProperty properties suffixes) node) :
    ReadAs (withProperties base properties) node := by
  obtain ⟨a, b, text, _, rfl, operand, suffixes, rfl, built, each⟩ := h
  rw [ReadAs, buildExpression]
  exact built.bind_nil fun base' same => stopsAt_buildSuffixes_of_properties each same

/-! ## A path as a script -/

section Paths

variable {name : Identifier} {properties : List Identifier} (spelled : Spelled name properties)
include spelled

theorem Spelled.ofList_not_mem : String.ofList name.name.toList ∉ reservedWords := by
  rw [String.ofList_toList]
  exact spelled.free

/-- No rule for reserved words takes the beginning of a path. -/
theorem refuses_keyword_of_spelled (k : Keyword) :
    grammar.Refuses .free (.rule k.rule) (writePath name properties) :=
  k.refuses_of_isName spelled.isName spelled.ofList_not_mem (endsName_writeProperties properties)

/-- The first name of a path is taken as a name. -/
theorem takes_name_of_spelled :
    grammar.Takes .free (.rule .identifier) (writePath name properties)
      (writeProperties properties) (LeafOf .identifier name.name.toList) :=
  takes_identifier spelled.isName spelled.ofList_not_mem (endsName_writeProperties properties)

/-- A path is taken as an operand with properties. -/
theorem takes_path :
    grammar.Takes .free (.rule .memberExpression) (writePath name properties) []
      (Single (ReadAs (withProperties (.identifier name) properties))) := by
  have word := refuses_keyword_of_spelled spelled
  -- a name is the last operand that is tried; those confused with it begin with reserved words
  have first := takes_primary 7 (takes_name_of_spelled spelled) rfl <| by
    refine List.forall_mem_cons.mpr ⟨.rule ((word .function).seq _), ?_⟩
    exact List.forall_mem_cons.mpr ⟨word .boolean, List.forall_mem_singleton.mpr (word .null)⟩
  have quiet : grammar.Quiet .free (writeProperties properties) := by
    cases properties with
    | nil => exact quiet_end
    | cons property properties => exact quiet_sign (by decide) _
  refine (takes_member first quiet (takes_properties spelled.each) ?_).mono
    fun _ one => one.imp fun _ => readAs_withProperties
  rintro _ suffixes ⟨a, b, ks, rfl⟩ each
  exact ⟨_, suffixes, rfl, readAs_name name a b ks, each⟩

/-- A path is taken as a statement: no other form of statement begins with a name. -/
theorem takes_pathStatement :
    grammar.Takes .free (.rule .statement) (writePath name properties) []
      (Single (NodeOf .expressionStatement
        (Single (ReadAs (withProperties (.identifier name) properties))))) := by
  have closes := closes_of_isEnd (.inl rfl)
  have expression := (takes_expression_of_member (takes_path spelled) closes).mono
    fun _ one => one.imp fun _ => readAs_chain
  have noSemicolon : grammar.Takes .free (.rule .smartSemicolon) [] [] (· = []) :=
    takes_silent rfl (Grammar.Refuses.takes_optional (refuses_end (by decide)))
  have taken := takes_node .expressionStatement rfl (expression.seq
    (S := Single (ReadAs (withProperties (.identifier name) properties))) closes.quiet noSemicolon
    fun _ _ => append_of_nil_right)
  have apart : ∀ form ∈ [Rule.blockStatement, .emptyStatement],
      isApart .free (.rule .identifier) .free (.rule form) = true := by decide
  refine takes_silent rfl (taken.oneOf 8 rfl ?_)
  show ∀ b ∈ statementForms.map Pattern.rule, _
  exact List.forall_mem_map.mpr (refuses_statementForms
    (fun k _ => refuses_keyword_of_spelled spelled k)
    fun form mem => refuses_of_isApart (takes_name_of_spelled spelled) (apart form mem))

/-- **A path is read as a script** that is the name with its properties. -/
theorem exists_parse_of_spelled :
    ∃ program span e, parseScript (String.ofList (writePath name properties)) = .ok program ∧
      program.body = [.expression span e] ∧
      e.unplaced = (withProperties (.identifier name) properties).unplaced := by
  have taken := takes_pathStatement spelled
  have quiet : grammar.Quiet .free (writePath name properties) := by
    have apart : isApart .free (.rule .statement) .atomic blank = true := by decide
    exact Grammar.quiet_of_refuses trivia_eq (refuses_of_isApart taken apart)
  obtain ⟨node, stop, script, gives⟩ := exists_script_of_statement taken quiet Pair.of_single
  obtain ⟨program, span, e, built, body, same⟩ := ofNode_of_isExpressionScript script
  exact ⟨program, span, e, parseScript_of_gives gives built, body, same⟩

end Paths

/-- **A path is read as the expression that it was made from**, up to stretches of source. -/
theorem exists_parse_of_path? {e : Expression} {path : String} (named : e.IsWellNamed)
    (hasPath : e.path? = some path) :
    ∃ program span e', parseScript path = .ok program ∧ program.body = [.expression span e'] ∧
      e'.unplaced = e.unplaced := by
  have chain := (exists_path_iff_isChain e).mp ⟨path, hasPath⟩
  obtain ⟨name, properties, spelled, same, written⟩ := exists_spelling_of_isChain chain named
  obtain rfl := Option.some.inj (hasPath.symm.trans written)
  obtain ⟨program, span, e', parsed, body, same'⟩ := exists_parse_of_spelled spelled
  exact ⟨program, span, e', parsed, body, same'.trans same.symm⟩

/-- **Expressions with the same path are the same**, up to stretches of source: the path is read as
only one expression. -/
theorem path?_eq_iff {e e' : Expression} {path : String} (named : e.IsWellNamed)
    (named' : e'.IsWellNamed) (hasPath : e.path? = some path) :
    e'.path? = some path ↔ e'.unplaced = e.unplaced := by
  constructor
  · intro hasPath'
    obtain ⟨program, span, read, parsed, body, same⟩ := exists_parse_of_path? named hasPath
    obtain ⟨program', span', read', parsed', body', same'⟩ :=
      exists_parse_of_path? named' hasPath'
    obtain rfl := Except.ok.inj (parsed.symm.trans parsed')
    rw [body] at body'
    obtain ⟨-, rfl⟩ : span = span' ∧ read = read' := by simpa using body'
    exact same'.symm.trans same
  · intro same
    rw [← path?_unplaced, same, path?_unplaced, hasPath]

/-! ## Other descriptions -/

/-- A text that begins as a name does and has a full stop in it, but no parenthesis.  The path of a
property is such a text, and no other description of an expression is. -/
structure PathLike (text : List Char) : Prop where
  opens : ∀ c ∈ text.head?, opensName c = true
  stop : '.' ∈ text
  noCall : ')' ∉ text

/-- A property of an expression. -/
def Expression.isMember : Expression → Bool
  | .member _ _ _ => true
  | _ => false

theorem isMember_unplaced (e : Expression) : e.unplaced.isMember = e.isMember := by
  cases e <;> rfl

section Descriptions

variable {e : Expression} {path : String}

/-- A property with a path is described by it. -/
theorem describe_of_path? (isMember : e.isMember = true) (hasPath : e.path? = some path) :
    e.describe = path := by
  cases e with
  | member span base property =>
    rw [path?_member] at hasPath
    obtain ⟨ofBase, found, rfl⟩ := Option.map_eq_some_iff.mp hasPath
    rw [Expression.describe, memberText, found]
  | _ => exact (Bool.false_ne_true isMember).elim

theorem not_mem_of_isName {w : List Char} (isName : isName w = true) {c : Char}
    (foreign : continuesName c = false) (opens : opensName c = false) : c ∉ w := by
  cases w with
  | nil => exact List.not_mem_nil
  | cons d ds =>
    obtain ⟨first, others⟩ := isName_cons.mp isName
    rintro (_ | ⟨_, mem⟩)
    · exact Bool.noConfusion (opens.symm.trans first)
    · exact Bool.noConfusion (foreign.symm.trans (others c mem))

/-- **The path of a property looks like one.** -/
theorem pathLike_of_path? (named : e.IsWellNamed) (isMember : e.isMember = true)
    (hasPath : e.path? = some path) : PathLike path.toList := by
  have chain := (exists_path_iff_isChain e).mp ⟨path, hasPath⟩
  obtain ⟨name, properties, spelled, -, written⟩ := exists_spelling_of_isChain chain named
  have text : path.toList = writePath name properties := by
    rw [Option.some.inj (hasPath.symm.trans written), String.toList_ofList]
  constructor
  · rw [text, writePath]
    cases first : name.name.toList with
    | nil => exact absurd first (ne_nil_of_isName spelled.isName)
    | cons c cs =>
      have opens := (isName_cons.mp (first ▸ spelled.isName)).1
      exact fun d head => Option.some.inj head ▸ opens
  · cases e with
    | member span base property =>
      rw [path?_member] at hasPath
      obtain ⟨ofBase, -, rfl⟩ := Option.map_eq_some_iff.mp hasPath
      simp [String.toList_append]
    | _ => exact (Bool.false_ne_true isMember).elim
  · rw [text, writePath, List.mem_append, writeProperties, List.mem_flatMap]
    rintro (inName | ⟨property, listed, _ | ⟨_, inProperty⟩⟩)
    · exact not_mem_of_isName spelled.isName (by decide) (by decide) inName
    · exact not_mem_of_isName (spelled.each property listed) (by decide) (by decide) inProperty

/-- A digit begins no name. -/
theorem opensName_of_isDigit {c : Char} (digit : c.isDigit = true) : opensName c = false := by
  have noLetter : c.isAlpha = false := by
    have below : c.val.toNat ≤ '9'.val.toNat :=
      UInt32.le_iff_toNat_le.mp (of_decide_eq_true (Bool.and_eq_true_iff.mp digit).2)
    refine Bool.eq_false_iff.mpr fun letter => ?_
    rcases Bool.or_eq_true_iff.mp letter with upper | lower
    · have above := UInt32.le_iff_toNat_le.mp (of_decide_eq_true upper).1
      exact absurd (Nat.le_trans above below) (by decide)
    · have above := UInt32.le_iff_toNat_le.mp (of_decide_eq_true (Bool.and_eq_true_iff.mp lower).1)
      exact absurd (Nat.le_trans above below) (by decide)
  have noSign {d : Char} (other : d.isDigit = false) : (c == d) = false :=
    beq_eq_false_iff_ne.mpr fun same => Bool.noConfusion (other.symm.trans (same ▸ digit))
  rw [opensName, noLetter, noSign (by decide), noSign (by decide)]
  rfl

/-- A decimal is written with digits and a point. -/
theorem opensName_of_mem_positionalText {d : Decimal} {c : Char}
    (mem : c ∈ (d.positionalText false).toList) : opensName c = false := by
  have digit (here : c ∈ d.digitChars) : opensName c = false :=
    opensName_of_isDigit (Nat.isDigit_of_mem_toDigits (by decide) (by decide) here)
  have zero {n : Nat} (here : c ∈ List.replicate n '0') : opensName c = false := by
    rw [List.eq_of_mem_replicate here]
    decide
  have sign {w : String} (plain : w.toList.all (fun c => !opensName c) = true)
      (here : c ∈ w.toList) : opensName c = false :=
    (Bool.not_eq_true' _).mp (List.all_eq_true.mp plain c here)
  unfold Decimal.positionalText at mem
  simp only at mem
  split at mem
  · simp only [String.toList_append, String.toList_ofList, List.mem_append] at mem
    obtain (here | here) | here := mem
    · exact digit here
    · exact zero here
    · exact sign (by decide) here
  · split at mem
    · simp only [String.toList_append, String.toList_ofList, List.mem_append] at mem
      obtain (here | here) | here := mem
      · exact digit (List.mem_of_mem_take here)
      · exact sign (by decide) here
      · exact digit (List.mem_of_mem_drop here)
    · simp only [String.toList_append, String.toList_ofList, List.mem_append] at mem
      obtain here | here | here := mem
      · exact sign (by decide) here
      · exact zero here
      · exact digit here

/-- A number that is written in digits begins as no name does. -/
theorem opensName_of_mem_render {x : Number} {c : Char} (mem : c ∈ (x.render .literal).toList) :
    opensName c = false := by
  rw [Number.render, String.toList_append, List.mem_append] at mem
  rcases mem with inSign | inDecimal
  · unfold Number.signText at inSign
    split at inSign
    · rw [List.mem_singleton.mp inSign]
      decide
    · exact absurd inSign (by simp)
  · exact opensName_of_mem_positionalText inDecimal

/-- The words among the literals have no full stop, a string begins with a quote, and a number with
a digit or a sign. -/
theorem not_pathLike_literal (value : Literal) : ¬ PathLike value.describe.toList := by
  intro looks
  cases value with
  | null => exact absurd looks.stop (by decide)
  | bool b => cases b <;> exact absurd looks.stop (by decide)
  | str s => exact absurd (looks.opens '"' (by simp [Literal.describe, Text.quote])) (by decide)
  | num x =>
    rw [Literal.describe, Number.literalText] at looks
    split at looks
    · exact absurd looks.stop (by decide)
    split at looks
    · unfold Number.signText at looks
      split at looks <;> exact absurd looks.stop (by decide)
    · have nonempty := List.ne_nil_of_mem looks.stop
      have opens := looks.opens _ (List.head?_eq_some_head nonempty)
      have plain := opensName_of_mem_render (List.head_mem nonempty)
      exact Bool.noConfusion (plain.symm.trans opens)

/-- **No other description looks like the path of a property.** -/
theorem not_pathLike_describe (named : e.IsWellNamed)
    (noPath : e.isMember = true → e.path? = none) : ¬ PathLike e.describe.toList := by
  intro looks
  cases e with
  | identifier name => exact not_mem_of_isName named.1 (by decide) (by decide) looks.stop
  | member span base property =>
    have ofBase := Option.map_eq_none_iff.mp ((path?_member span property).symm.trans (noPath rfl))
    rw [Expression.describe, memberText, ofBase] at looks
    exact absurd (looks.opens '<' (by simp [String.toList_append])) (by decide)
  | literal span value => exact not_pathLike_literal value looks
  | call span callee arguments =>
    rw [Expression.describe] at looks
    exact looks.noCall (by simp [String.toList_append])
  | function span id =>
    rw [Expression.describe] at looks
    exact absurd looks.stop (by decide)
  | object span properties | array span elements =>
    rw [Expression.describe] at looks
    exact absurd (looks.opens _ rfl) (by decide)
  | _ =>
    rw [Expression.describe] at looks
    exact absurd (looks.opens _ rfl) (by decide)

/-- **An expression is described by the path of a property only if it is that property**, up to
stretches of source. -/
theorem describe_eq_iff {m : Expression} (named : e.IsWellNamed) (named' : m.IsWellNamed)
    (isMember : m.isMember = true) (hasPath : m.path? = some path) :
    e.describe = path ↔ e.unplaced = m.unplaced := by
  have looks := pathLike_of_path? named' isMember hasPath
  constructor
  · rintro rfl
    by_cases isProperty : e.isMember = true
    · cases own : e.path? with
      | none => exact absurd looks (not_pathLike_describe named fun _ => own)
      | some path =>
        rw [describe_of_path? isProperty own] at hasPath
        exact (path?_eq_iff named' named hasPath).mp own
    · exact absurd looks (not_pathLike_describe named fun here => absurd here isProperty)
  · intro same
    have isProperty : e.isMember = true := by
      rw [← isMember_unplaced, same, isMember_unplaced, isMember]
    exact describe_of_path? isProperty ((path?_eq_iff named' named hasPath).mpr same)

end Descriptions

/-! ## The properties in a program -/

/-- The properties that a program reads, calls or assigns. -/
def Program.members (p : Program) : List Expression :=
  p.terms.filter Expression.isMember

/-- **The path of a property names it.**  A property in a parsed program has a path if it is a chain
that begins with a name.  The path is then a script of its own, with that property as its only
statement, up to stretches of source.  So no other expression in any parsed program has this path or
is described by it. -/
theorem memberPaths_name_properties {source : String} {program : Program}
    (parsed : parseScript source = .ok program) {m : Expression} (here : m ∈ program.members) :
    ((∃ path, m.path? = some path) ↔ m.IsChain) ∧
      ∀ path, m.path? = some path →
        (∃ program' span e, parseScript path = .ok program' ∧
            program'.body = [.expression span e] ∧ e.unplaced = m.unplaced) ∧
          ∀ source' program', parseScript source' = .ok program' → ∀ e ∈ program'.terms,
            (e.path? = some path ↔ e.unplaced = m.unplaced) ∧
              (e.describe = path ↔ e.unplaced = m.unplaced) := by
  obtain ⟨there, isMember⟩ := List.mem_filter.mp here
  have named := wellNamed_of_parseScript parsed m there
  refine ⟨exists_path_iff_isChain m, fun path hasPath => ?_⟩
  refine ⟨exists_parse_of_path? named hasPath, fun source' program' parsed' e listed => ?_⟩
  have named' := wellNamed_of_parseScript parsed' e listed
  exact ⟨path?_eq_iff named named' hasPath, describe_eq_iff named' named isMember hasPath⟩

/-- A script with a property of a property, in parentheses and with blanks and a comment, whose
name is a reserved word. -/
def scatteredScript : String :=
  "((a /* x */).if\n.b) = f().c;"

/-- The inner property and the outer one have paths, and the property of the call has none. -/
theorem members_of_scatteredScript :
    ∃ program, parseScript scatteredScript = .ok program ∧
      program.members.map Expression.path? = [some "a.if.b", some "a.if", none] ∧
      ∃ m ∈ program.members, m.path? = some "a.if.b" ∧
        ∃ program' span e, parseScript "a.if.b" = .ok program' ∧
          program'.body = [.expression span e] ∧ e.unplaced = m.unplaced := by
  obtain ⟨program, parsed, paths⟩ := exists_ok_of_toOption_map (by decide +kernel :
    (parseScript scatteredScript).toOption.map (fun p => p.members.map Expression.path?) =
      some [some "a.if.b", some "a.if", none])
  have listed : some "a.if.b" ∈ program.members.map Expression.path? := by
    rw [paths]
    exact List.mem_cons_self
  obtain ⟨m, here, path⟩ := List.mem_map.mp listed
  exact ⟨program, parsed, paths, m, here, path,
    ((memberPaths_name_properties parsed here).2 _ path).1⟩

end ScriptTrace
