import ScriptTrace.CommandLine.Session
import ScriptTrace.Number.Layout
import ScriptTrace.Proofs.PlaybackWalk

/-!
# What a session reports

A session shows where it stands, reads a line and answers.  What it prints is cut here into its
exchanges, each with the session that shows the prompt and the command that is given there, and each
exchange is compared with the playback at that moment, which is the one of the commands before it
(`session_of_exchanges`).

The prompts and the lines of steps tell what the playback does.  The line of a reset does not always
do so: it tells the number of steps at the start of the session, and after a reset the playback
holds none of them.  So the second reset of a session tells of steps that are no longer there, and
`session_reports` says that nothing else goes wrong: the line is right if and only if no reset came
before it, or the trace was empty from the start.

* `Session.Exchange`, `Session.exchanges`: the exchanges of a session.
* `session_of_exchanges`: the session at a prompt is the one of the commands before it.
* `session_reports`: what the prompts, the lines of steps and the lines of resets tell.
-/

namespace ScriptTrace.CommandLine

/-- What a command does to the playback. -/
def Command.move? : Command → Option Playback.Move
  | .next => some .next
  | .previous => some .previous
  | .reset => some .reset
  | .quit | .unknown => none

namespace Session

/-! ## Exchanges -/

/-- A prompt, with the session that shows it, and the command that is given there, if there is a
line. -/
structure Exchange where
  session : Session
  command : Option Command

namespace Exchange

/-- What is printed as an answer. -/
def reply (x : Exchange) : String :=
  (x.command.map fun command => (x.session.answer command).1).getD ""

/-- All that is printed. -/
def text (x : Exchange) : String :=
  x.session.prompt ++ x.reply

/-- What happens to the playback. -/
def move? (x : Exchange) : Option Playback.Move :=
  x.command.bind Command.move?

end Exchange

/-- The exchanges of a session, given the lines that are typed. -/
def exchanges (s : Session) : List String → List Exchange
  | [] => [⟨s, none⟩]
  | line :: rest =>
    ⟨s, some (.of line)⟩ ::
      match (s.answer (.of line)).2 with
      | none => []
      | some next => next.exchanges rest

/-- The line that says how many steps a reset has dropped. -/
def droppedLine (n : Nat) : String :=
  "trace cleared (" ++ toString n ++ " steps dropped)\n"

theorem droppedLine_inj {m n : Nat} : droppedLine m = droppedLine n ↔ m = n := by
  -- not by the equation of the definition, which takes long to be derived
  delta droppedLine
  rw [String.append_left_inj, String.append_right_inj, toString_inj]

/-- A session prints the texts of its exchanges. -/
theorem replies_eq (s : Session) (lines : List String) :
    s.replies lines = String.join ((s.exchanges lines).map Exchange.text) := by
  induction lines generalizing s with
  | nil => simp [replies, exchanges, Exchange.text, Exchange.reply]
  | cons line rest ih =>
    have first : Exchange.text ⟨s, some (.of line)⟩ = s.prompt ++ (s.answer (.of line)).1 := rfl
    rw [replies, exchanges, List.map_cons, String.join_cons, first]
    rcases s.answer (.of line) with ⟨text, _ | next⟩
    · simp
    · simp only [ih]

/-! ## The session at a prompt -/

/-- An answer moves the playback as the command says, and the number of steps at the start stays. -/
theorem eq_of_answer {s next : Session} {command : Command}
    (goes : (s.answer command).2 = some next) :
    next = ⟨s.playback.after command.move?.toList, s.total⟩ := by
  cases command with
  | quit => cases goes
  | next | previous | reset | unknown => exact (Option.some.inj goes).symm

/-- **The session at a prompt is the one of the commands before it**, and the commands are those of
the lines. -/
theorem session_of_exchanges {s : Session} {lines : List String} {before later : List Exchange}
    {x : Exchange} (parts : s.exchanges lines = before ++ x :: later) :
    x.session = ⟨s.playback.after (before.filterMap Exchange.move?), s.total⟩ ∧
      x.command = lines[before.length]?.map Command.of := by
  induction before generalizing s lines with
  | nil =>
    cases lines with
    | nil =>
      obtain ⟨rfl, -⟩ := List.cons.inj parts
      exact ⟨rfl, rfl⟩
    | cons line rest =>
      obtain ⟨rfl, -⟩ := List.cons.inj parts
      exact ⟨rfl, rfl⟩
  | cons y before ih =>
    cases lines with
    | nil =>
      obtain ⟨-, none⟩ := List.cons.inj parts
      simp at none
    | cons line rest =>
      rw [exchanges] at parts
      obtain ⟨rfl, tail⟩ := List.cons.inj parts
      cases goes : (s.answer (.of line)).2 with
      | none => simp [goes] at tail
      | some next =>
        rw [goes] at tail
        obtain ⟨session, command⟩ := ih tail
        refine ⟨?_, command⟩
        rw [session, eq_of_answer goes, List.filterMap_cons, Exchange.move?, Option.bind_some]
        cases (Command.of line).move? <;> rfl

/-- After some exchanges the playback holds the steps that it held before them, or no steps if one
of them was a reset. -/
theorem lastLoaded_exchanges (steps : Array Step) (before : List Exchange) :
    Playback.lastLoaded steps (before.filterMap Exchange.move?) =
      if ∃ y ∈ before, y.command = some .reset then #[] else steps := by
  induction before generalizing steps with
  | nil => simp [Playback.lastLoaded]
  | cons y before ih =>
    rw [List.filterMap_cons, Exchange.move?]
    rcases y with ⟨session, _ | command⟩
    · simpa using ih steps
    cases command with
    | next | previous =>
      have same := ih steps
      simpa [Command.move?, Playback.lastLoaded_cons, Playback.Move.loads?] using same
    | reset =>
      have emptied := ih #[]
      simpa [Command.move?, Playback.lastLoaded_cons, Playback.Move.loads?] using emptied
    | quit | unknown => simpa [Command.move?] using ih steps

/-! ## What is reported -/

/-- **The prompts and the lines of steps tell what the playback does, and the line of a reset tells
the number of steps at the start.**  That is what the reset drops if and only if no reset came
before it, or there were no steps from the start. -/
theorem session_reports (steps : Array Step) (lines : List String) :
    transcript steps lines =
        help ++ String.join (((start steps).exchanges lines).map Exchange.text) ∧
      ∀ before x later, (start steps).exchanges lines = before ++ x :: later →
        let p := x.session.playback
        p = (Playback.load steps).after (before.filterMap Exchange.move?) ∧
          x.command = lines[before.length]?.map Command.of ∧
          x.session.prompt = "[" ++ toString p.position ++ "/" ++ toString p.size ++ "]> " ∧
          p.position ≤ p.size ∧
          (x.command = some .next →
            (∃ s, x.reply = s.text ++ "\n" ∧ p.next.executed = p.executed ++ [s] ∧
                p.next.current? = some s) ∨
              x.reply = "(end of trace)\n" ∧ p.position = p.size ∧ p.next = p) ∧
          (x.command = some .reset →
            x.reply = droppedLine steps.size ∧
              (x.reply = droppedLine p.size ↔
                (∀ y ∈ before, y.command ≠ some .reset) ∨ steps.size = 0)) := by
  refine ⟨congrArg (help ++ ·) ((start steps).replies_eq lines), ?_⟩
  intro before x later parts p
  obtain ⟨session, command⟩ := session_of_exchanges parts
  have playback : p = (Playback.load steps).after (before.filterMap Exchange.move?) :=
    congrArg Session.playback session
  have total : x.session.total = steps.size := congrArg Session.total session
  refine ⟨playback, command, rfl, p.position_le, fun next => ?_, fun reset => ?_⟩
  · have reply : x.reply = (x.session.answer .next).1 := by rw [Exchange.reply, next]; rfl
    -- here too the equations of the definition take long to be derived
    delta answer at reply
    cases upcoming : p.upcoming? with
    | some s =>
      have grown := (Playback.upcoming?_eq_some s).mp upcoming
      refine .inl ⟨s, ?_, grown, ?_⟩
      · rw [reply, upcoming]
      · rw [Playback.current?_eq, grown, List.getLast?_concat]
    | none =>
      have finished : p.size ≤ p.position := Array.getElem?_eq_none_iff.mp upcoming
      refine .inr ⟨?_, Nat.le_antisymm p.position_le finished, Playback.next_eq_self upcoming⟩
      rw [reply, upcoming]
  · have reply : x.reply = droppedLine steps.size := by
      rw [Exchange.reply, reset, ← total]
      rfl
    refine ⟨reply, ?_⟩
    have held : p.steps = if ∃ y ∈ before, y.command = some .reset then #[] else steps := by
      rw [playback, Playback.steps_after]
      exact lastLoaded_exchanges steps before
    rw [reply, droppedLine_inj, Playback.size, held]
    by_cases cleared : ∃ y ∈ before, y.command = some .reset
    · obtain ⟨y, there, before⟩ := cleared
      rw [if_pos ⟨y, there, before⟩, Array.size_empty]
      exact ⟨.inr, fun right => right.resolve_left fun none => none y there before⟩
    · rw [if_neg cleared]
      have none : ∀ y ∈ before, y.command ≠ some .reset := fun y there before =>
        cleared ⟨y, there, before⟩
      exact ⟨fun _ => .inl none, fun _ => rfl⟩

/-- The step of the trace below. -/
def onlyStep : Step :=
  ⟨"step-0", .createGlobalContext, "", none⟩

/-- **A second reset tells of a step that the playback does not hold any more.** -/
theorem second_reset_misreports :
    transcript #[onlyStep] ["r", "r"] =
        help ++ "[0/1]> " ++ droppedLine 1 ++ "[0/0]> " ++ droppedLine 1 ++ "[0/0]> " ∧
      ∃ x ∈ (start #[onlyStep]).exchanges ["r", "r"],
        x.command = some .reset ∧ x.reply ≠ droppedLine x.session.playback.size := by
  refine ⟨by decide, ⟨⟨.reset, 1⟩, some .reset⟩, ?_, rfl, ?_⟩
  · exact List.mem_cons_of_mem _ (List.mem_cons_self ..)
  · exact fun same => absurd (droppedLine_inj.mp same) (by decide)

end Session

end ScriptTrace.CommandLine
