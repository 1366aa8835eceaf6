import ScriptTrace.Playback

/-!
# Where a playback stands

A playback is moved about in any order: forth and back, emptied, and loaded anew at any time.  This
file says what it shows after any list of moves.

Two things have to be followed through the moves.  The steps are those that were loaded last, where
a reset counts as loading no steps (`steps_after`).  The position is an integer that walks by one
and is brought back to the nearest end whenever it leaves the steps (`position_after_turns`).  All
the rest is about a single position: the steps shown so far are a beginning of the steps, and each
move forth or back adds or takes away the last of them.

* `Playback.Move`, `Playback.after`: the moves, and the playback after some of them.
* `Playback.lastLoaded`: the steps that some moves leave in the playback.
* `Playback.Turn`, `Playback.clamp`: moves by one, and the ends that stop them.
* `after_moves`: what a playback shows after any moves, and what each further move does.
-/

namespace ScriptTrace

namespace Playback

/-! ## Moves -/

/-- What can be done to a playback. -/
inductive Move where
  | next
  | previous
  | reset
  | load (steps : Array Step)

/-- The playback after a move. -/
def move (p : Playback) : Move → Playback
  | .next => p.next
  | .previous => p.previous
  | .reset => .reset
  | .load steps => .load steps

/-- The playback after some moves, the first of them first. -/
def after (p : Playback) (moves : List Move) : Playback :=
  moves.foldl move p

/-- The steps that a move puts in the place of the steps that were there, if it does. -/
def Move.loads? : Move → Option (Array Step)
  | .load steps => some steps
  | .reset => some #[]
  | .next | .previous => none

/-- The steps that are there after some moves, given those that were there before. -/
def lastLoaded (steps : Array Step) (moves : List Move) : Array Step :=
  (moves.reverse.findSome? Move.loads?).getD steps

/-- A move by one. -/
inductive Turn where
  | forth
  | back

/-- The turn as a move. -/
def Turn.toMove : Turn → Move
  | .forth => .next
  | .back => .previous

/-- How far a turn goes. -/
def Turn.distance : Turn → Int
  | .forth => 1
  | .back => -1

/-- The number between `0` and `size` that is nearest to a number. -/
def clamp (size : Nat) (z : Int) : Int :=
  max 0 (min size z)

theorem after_cons (p : Playback) (m : Move) (moves : List Move) :
    p.after (m :: moves) = (p.move m).after moves :=
  rfl

@[simp] theorem next_steps (p : Playback) : p.next.steps = p.steps := by
  rw [next]
  split <;> rfl

@[simp] theorem previous_steps (p : Playback) : p.previous.steps = p.steps :=
  rfl

@[simp] theorem previous_position (p : Playback) : p.previous.position = p.position - 1 :=
  rfl

theorem next_position (p : Playback) : p.next.position = min p.steps.size (p.position + 1) := by
  have within := p.position_le
  rw [next]
  split
  · rename_i more
    exact (Nat.min_eq_right more).symm
  · rename_i finished
    change p.position = _
    omega

/-- Playbacks with the same steps that stand at the same position are the same. -/
theorem eq_of_position {p q : Playback} (steps : p.steps = q.steps)
    (position : p.position = q.position) : p = q := by
  cases p
  cases q
  cases steps
  cases position
  rfl

/-! ## The steps after some moves -/

/-- A move leaves the steps that it loads, or else those that were there. -/
theorem steps_move (p : Playback) (m : Move) : (p.move m).steps = m.loads?.getD p.steps := by
  cases m with
  | next => exact p.next_steps
  | previous => exact p.previous_steps
  | reset => rfl
  | load steps => rfl

theorem lastLoaded_cons (steps : Array Step) (m : Move) (moves : List Move) :
    lastLoaded steps (m :: moves) = lastLoaded (m.loads?.getD steps) moves := by
  simp only [lastLoaded, List.reverse_cons, List.findSome?_append, List.findSome?_singleton]
  cases moves.reverse.findSome? Move.loads? <;> rfl

/-- **The steps after any moves are those loaded last.** -/
theorem steps_after (p : Playback) (moves : List Move) :
    (p.after moves).steps = lastLoaded p.steps moves := by
  induction moves generalizing p with
  | nil => rfl
  | cons m moves ih => rw [after_cons, ih, steps_move, lastLoaded_cons]

/-- Turns load nothing. -/
theorem lastLoaded_turns (steps : Array Step) (turns : List Turn) :
    lastLoaded steps (turns.map Turn.toMove) = steps := by
  induction turns with
  | nil => rfl
  | cons turn turns ih =>
    rw [List.map_cons, lastLoaded_cons]
    cases turn <;> exact ih

/-! ## The position after some turns -/

/-- **A turn is a step by one that the ends stop.** -/
theorem position_turn (p : Playback) (turn : Turn) :
    ((p.move turn.toMove).position : Int) = clamp p.size (p.position + turn.distance) := by
  have within := p.position_le
  cases turn with
  | forth =>
    have there : (p.move Turn.forth.toMove).position = _ := p.next_position
    rw [there, clamp, Turn.distance, size]
    omega
  | back =>
    have there : (p.move Turn.back.toMove).position = _ := p.previous_position
    rw [there, clamp, Turn.distance, size]
    omega

/-- **The position after any turns is the walk of their distances within the ends.** -/
theorem position_after_turns (p : Playback) (turns : List Turn) :
    ((p.after (turns.map Turn.toMove)).position : Int) =
      turns.foldl (fun place turn => clamp p.size (place + turn.distance)) p.position := by
  induction turns generalizing p with
  | nil => rfl
  | cons turn turns ih =>
    have same : (p.move turn.toMove).size = p.size := by
      cases turn
      · exact congrArg Array.size p.next_steps
      · rfl
    rw [List.map_cons, after_cons, ih, List.foldl_cons, ← position_turn, same]

/-! ## The steps shown so far -/

/-- As many steps are shown as the position says: the position is never beyond the steps. -/
@[simp] theorem length_executed (p : Playback) : p.executed.length = p.position := by
  rw [executed, List.length_take, Array.length_toList]
  exact Nat.min_eq_left p.position_le

theorem take_succ (p : Playback) (i : Nat) (inside : i < p.steps.size) :
    p.steps.toList.take (i + 1) = p.steps.toList.take i ++ [p.steps[i]] := by
  rw [List.take_succ_eq_append_getElem (by simpa using inside), Array.getElem_toList]

/-- The step shown last is the last of those shown. -/
theorem current?_eq (p : Playback) : p.current? = p.executed.getLast? := by
  rw [current?, executed]
  split
  · rename_i start
    rw [start]
    rfl
  · rename_i started
    have inside : p.position - 1 < p.steps.size := by
      have within := p.position_le
      omega
    have split := p.take_succ (p.position - 1) inside
    rw [Nat.sub_add_cancel (Nat.pos_of_ne_zero started)] at split
    rw [split, List.getLast?_concat, Array.getElem?_eq_getElem inside]

/-- Without a further step, going forth changes nothing. -/
theorem next_eq_self {p : Playback} (finished : p.upcoming? = none) : p.next = p := by
  have outside : ¬ p.position < p.steps.size := by
    simpa [upcoming?] using finished
  rw [next, dif_neg outside]

/-- **Going forth shows the step that comes next, and no other.** -/
theorem upcoming?_eq_some {p : Playback} (s : Step) :
    p.upcoming? = some s ↔ p.next.executed = p.executed ++ [s] := by
  constructor
  · intro upcoming
    obtain ⟨inside, rfl⟩ := Array.getElem?_eq_some_iff.mp upcoming
    rw [next, dif_pos inside]
    exact p.take_succ p.position inside
  · intro grown
    cases upcoming : p.upcoming? with
    | none =>
      -- Nothing was shown, so nothing can have grown.
      rw [next_eq_self upcoming] at grown
      simp at grown
    | some other =>
      obtain ⟨inside, rfl⟩ := Array.getElem?_eq_some_iff.mp upcoming
      have more : p.next.executed = p.executed ++ [p.steps[p.position]] := by
        rw [next, dif_pos inside]
        exact p.take_succ p.position inside
      have same := List.append_cancel_left (more.symm.trans grown)
      rw [(List.cons.inj same).1]

/-- At the start, going back changes nothing. -/
theorem previous_eq_self {p : Playback} (start : p.canGoBack = false) : p.previous = p := by
  have zero : p.position = 0 := by simpa [canGoBack] using start
  exact eq_of_position rfl (by rw [previous_position, zero])

/-- **Going back takes away the step that was shown last.** -/
theorem executed_previous {p : Playback} (started : p.canGoBack = true) :
    ∃ s, p.current? = some s ∧ p.executed = p.previous.executed ++ [s] := by
  have positive : 0 < p.position := by simpa [canGoBack] using started
  have inside : p.position - 1 < p.steps.size := by
    have within := p.position_le
    omega
  have split := p.take_succ (p.position - 1) inside
  rw [Nat.sub_add_cancel positive] at split
  refine ⟨p.steps[p.position - 1], ?_, split⟩
  rw [current?_eq, executed, split, List.getLast?_concat]

theorem canGoBack_iff (p : Playback) :
    p.canGoBack = true ↔ ∃ s, p.executed = p.previous.executed ++ [s] := by
  constructor
  · intro started
    obtain ⟨s, -, shorter⟩ := executed_previous started
    exact ⟨s, shorter⟩
  · rintro ⟨s, shorter⟩
    have lengths := congrArg List.length shorter
    rw [length_executed, List.length_append, length_executed, List.length_singleton] at lengths
    rw [canGoBack, decide_eq_true_eq]
    omega

/-- **Going forth after going back shows the same step again.** -/
theorem next_previous {p : Playback} (started : p.canGoBack = true) :
    p.previous.upcoming? = p.current? ∧ p.previous.next = p := by
  have positive : 0 < p.position := by simpa [canGoBack] using started
  have within := p.position_le
  constructor
  · rw [current?, if_neg (Nat.ne_of_gt positive)]
    rfl
  · refine eq_of_position p.previous.next_steps ?_
    rw [next_position, previous_steps, previous_position]
    omega

/-! ## Any moves -/

/-- **After any moves, a playback shows a beginning of the steps loaded last, and each move forth or
back adds or takes away exactly the last step shown, or changes nothing at the ends.** -/
theorem after_moves (steps : Array Step) (moves : List Move) :
    let p := (load steps).after moves
    p.position ≤ p.size ∧ p.executed.length = p.position ∧
      p.steps = lastLoaded steps moves ∧
      p.executed = (lastLoaded steps moves).toList.take p.position ∧
      p.current? = p.executed.getLast? ∧
      (∀ s, p.upcoming? = some s ↔ p.next.executed = p.executed ++ [s]) ∧
      (p.upcoming? = none → p.next = p) ∧
      (p.canGoBack = true ↔ ∃ s, p.executed = p.previous.executed ++ [s]) ∧
      (p.canGoBack = false → p.previous = p) ∧
      (p.canGoBack = true → p.previous.upcoming? = p.current? ∧ p.previous.next = p) ∧
      ∀ turns : List Turn,
        (p.after (turns.map Turn.toMove)).steps = p.steps ∧
        ((p.after (turns.map Turn.toMove)).position : Int) =
          turns.foldl (fun place turn => clamp p.size (place + turn.distance)) p.position := by
  intro p
  have loaded : p.steps = lastLoaded steps moves := (load steps).steps_after moves
  refine ⟨p.position_le, p.length_executed, loaded, ?_, p.current?_eq, upcoming?_eq_some,
    next_eq_self, p.canGoBack_iff, previous_eq_self, next_previous, fun turns => ⟨?_, ?_⟩⟩
  · rw [executed, loaded]
  · rw [steps_after, lastLoaded_turns]
  · exact p.position_after_turns turns

end Playback

end ScriptTrace
