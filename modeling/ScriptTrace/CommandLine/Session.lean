import ScriptTrace.Playback
import ScriptTrace.Text.Blank

/-!
# Interactive sessions

A session walks through a trace, a command a line.  It shows where it stands, reads a line and
answers, until the line says to stop or there are no more lines.

* `Session`: the playback, and the number of steps at the start.
* `Session.answer`: the answer to a command.
* `Session.transcript`: all that a session prints.
-/

namespace ScriptTrace.CommandLine

/-- What a line asks for. -/
inductive Command where
  | next
  | previous
  | reset
  | quit
  | unknown
  deriving DecidableEq, Repr

/-- What a line asks for; the blanks around it do not count, and an empty line asks for the next
step. -/
def Command.of (line : String) : Command :=
  match Text.trim line with
  | "n" | "" => .next
  | "p" => .previous
  | "r" => .reset
  | "q" => .quit
  | _ => .unknown

/-- A session: the playback, and how many steps the trace had at the start. -/
structure Session where
  playback : Playback
  total : Nat

namespace Session

/-- The session at the start of a trace. -/
def start (steps : Array Step) : Session :=
  ⟨.load steps, steps.size⟩

/-- The line that explains the commands. -/
def help : String :=
  "Commands: n = next, p = previous, r = reset, q = quit\n"

/-- The text before a command: the position, and the number of steps. -/
def prompt (s : Session) : String :=
  "[" ++ toString s.playback.position ++ "/" ++ toString s.playback.size ++ "]> "

/-- The answer to a command, and the session after it, unless it is over. -/
def answer (s : Session) : Command → String × Option Session
  | .next =>
    let text := match s.playback.upcoming? with
      | some step => step.text ++ "\n"
      | none => "(end of trace)\n"
    (text, some { s with playback := s.playback.next })
  | .previous =>
    let playback := s.playback.previous
    let text := match playback.current? with
      | some step => "back to " ++ step.text ++ "\n"
      | none => "(start of trace)\n"
    (text, some { s with playback })
  | .reset =>
    ("trace cleared (" ++ toString s.total ++ " steps dropped)\n",
      some { s with playback := .reset })
  | .quit => ("", none)
  | .unknown => (help, some s)

/-- What a session prints from a prompt on, given the lines that are typed. -/
def replies (s : Session) : List String → String
  | [] => s.prompt
  | line :: rest =>
    match s.answer (.of line) with
    | (text, none) => s.prompt ++ text
    | (text, some next) => s.prompt ++ text ++ next.replies rest

/-- All that a session prints, given the lines that are typed. -/
def transcript (steps : Array Step) (lines : List String) : String :=
  help ++ (start steps).replies lines

end Session

end ScriptTrace.CommandLine
