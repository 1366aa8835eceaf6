import ScriptTrace.Proofs.Contract

/-!
# Points of a run

The list of the states of a run does not say what the run is doing in them.  A *point* of a run is
a state together with the execution that is left to do: `x.Arrives m y s` says that the execution
`x`, begun in the state `m`, comes to the state `s` with `y` left to do.  The states from a point on
are then the states of `y`, and they stand at the end of the list of all states.

An execution takes its effects in the states that it comes to.  `x.Along P m` says that all effects
of `x`, begun in `m`, are taken in states that allow them.  If what is allowed keeps a relation
between the states before and after, then the relation holds between any two states of which one
comes later.

* `Exec.Arrives`: coming to a point.
* `Exec.Along`: a condition on the effects of a run, each in the state in which it is taken.
* `Exec.Along.pairwise_states`: from single effects to any two states of a run.
-/

namespace ScriptTrace

namespace Exec

variable {α β γ : Type}

/-! ## Coming to a point -/

/-- From the state `m` an execution comes to the state `s`, with another execution left to do. -/
inductive Arrives : Exec α → Machine → Exec α → Machine → Prop
  | here (x : Exec α) (m : Machine) : Arrives x m x m
  | look {next : Machine → Exec α} {m : Machine} {y : Exec α} {s : Machine}
      (rest : Arrives (next m) m y s) : Arrives (.look next) m y s
  | act {effect : Effect} {next : Exec α} {m : Machine} {y : Exec α} {s : Machine}
      (rest : Arrives next (effect.apply m) y s) : Arrives (.act effect next) m y s

/-- Going on twice is going on once, with the second continuation after the first. -/
theorem attempt_attempt (x : Exec α) (f : Except Fault α → Exec β) (g : Except Fault β → Exec γ) :
    (x.attempt f).attempt g = x.attempt fun outcome => (f outcome).attempt g := by
  induction x with
  | done _ => rfl
  | raise _ => rfl
  | look rest ih => exact congrArg Exec.look (funext ih)
  | act effect rest ih => exact congrArg (Exec.act effect) ih

/-- Going on after a result, and after a fault that stays what it is. -/
def afterResult (next : α → Exec β) : Except Fault α → Exec β
  | .ok result => next result
  | .error fault => .raise fault

theorem bind_eq_afterResult (x : Exec α) (next : α → Exec β) :
    x >>= next = x.attempt (afterResult next) := by
  refine (bind_eq_attempt x next).trans (congrArg x.attempt (funext fun outcome => ?_))
  cases outcome <;> rfl

namespace Arrives

variable {x y z : Exec α} {m s t : Machine}

theorem trans (first : x.Arrives m y s) (second : y.Arrives s z t) : x.Arrives m z t := by
  induction first with
  | here _ _ => exact second
  | look _ ih => exact .look (ih second)
  | act _ ih => exact .act (ih second)

/-- What comes afterwards does not matter for the points before. -/
theorem attempt (arrives : x.Arrives m y s) (next : Except Fault α → Exec β) :
    (x.attempt next).Arrives m (y.attempt next) s := by
  induction arrives with
  | here x m => exact .here _ m
  | look _ ih => exact .look ih
  | act _ ih => exact .act ih

/-- When the first of two executions has ended, the second one is left to do. -/
theorem of_run {outcome : Except Fault α} (ended : x.run m = (outcome, s))
    (next : Except Fault α → Exec β) : (x.attempt next).Arrives m (next outcome) s := by
  induction x generalizing m with
  | done result =>
    cases ended
    exact .here _ _
  | raise fault =>
    cases ended
    exact .here _ _
  | look rest ih => exact .look (ih m ended)
  | act effect rest ih => exact .act (ih ended)

theorem of_run_ok {a : α} (ended : x.run m = (.ok a, s)) (next : α → Exec β) :
    (x >>= next).Arrives m (next a) s := by
  rw [bind_eq_afterResult]
  exact of_run ended _

/-- **The states from a point on stand at the end of the states of the run.** -/
theorem states_suffix (arrives : x.Arrives m y s) : y.states s <:+ x.states m := by
  induction arrives with
  | here _ _ => exact List.suffix_refl _
  | look _ ih => exact ih
  | act _ ih => exact ih.trans (List.suffix_cons _ _)

theorem mem_states (arrives : x.Arrives m y s) : s ∈ x.states m :=
  arrives.states_suffix.mem (y.mem_states_start s)

end Arrives

/-! ## The effects of a run -/

/-- The effects of an execution are taken in states that allow them. -/
def Along (P : Machine → Effect → Prop) : Exec α → Machine → Prop
  | .done _, _ | .raise _, _ => True
  | .look next, m => (next m).Along P m
  | .act effect next, m => P m effect ∧ next.Along P (effect.apply m)

namespace Along

variable {P : Machine → Effect → Prop} {x : Exec α} {m : Machine}

theorem attempt {next : Except Fault α → Exec β} (first : x.Along P m)
    (second : (next (x.run m).1).Along P (x.run m).2) : (x.attempt next).Along P m := by
  induction x generalizing m with
  | done _ => exact second
  | raise _ => exact second
  | look rest ih => exact ih m first second
  | act effect rest ih => exact ⟨first.1, ih first.2 second⟩

theorem bind {next : α → Exec β} (first : x.Along P m)
    (each : ∀ a m', x.run m = (.ok a, m') → (next a).Along P m') : (x >>= next).Along P m := by
  rw [bind_eq_afterResult]
  refine first.attempt ?_
  rcases outcome : x.run m with ⟨fault | a, m'⟩
  · trivial
  · exact each a m' outcome

theorem asks (f : Machine → α) (m : Machine) : (Exec.asks f).Along P m :=
  trivial

theorem asksOrRaises (f : Machine → Except Fault α) (m : Machine) :
    (Exec.asksOrRaises f).Along P m := by
  simp only [Exec.asksOrRaises, Along]
  cases f m <;> trivial

theorem perform {effect : Effect} (allowed : P m effect) : (Exec.perform effect).Along P m :=
  ⟨allowed, trivial⟩

theorem record {event : Event} (allowed : P m (.record event)) :
    (ScriptTrace.record event).Along P m := by
  simp only [ScriptTrace.record, Along]
  cases m.recorder.reached? with
  | some limit => trivial
  | none => exact perform allowed

/-- An invariant that every effect keeps and that allows every effect. -/
theorem of_forall_effect {inv : Machine → Prop}
    (keeps : ∀ (effect : Effect) (m : Machine), inv m → inv (effect.apply m))
    (allows : ∀ (effect : Effect) (m : Machine), inv m → P m effect) (x : Exec α) {m : Machine}
    (start : inv m) : x.Along P m := by
  induction x generalizing m with
  | done _ => trivial
  | raise _ => trivial
  | look rest ih => exact ih m start
  | act effect rest ih => exact ⟨allows effect m start, ih (keeps effect m start)⟩

theorem of_arrives (along : x.Along P m) {y : Exec α} {s : Machine} (arrives : x.Arrives m y s) :
    y.Along P s := by
  induction arrives with
  | here _ _ => exact along
  | look _ ih => exact ih along
  | act _ ih => exact ih along.2

section

variable {R : Machine → Machine → Prop} (refl : ∀ m, R m m)
  (trans : ∀ {m₁ m₂ m₃}, R m₁ m₂ → R m₂ m₃ → R m₁ m₃)
  (step : ∀ {m effect}, P m effect → R m (effect.apply m))

include refl trans step

/-- What allowed effects keep holds between the first state and any other one. -/
theorem forall_states (along : x.Along P m) : ∀ s ∈ x.states m, R m s := by
  induction x generalizing m with
  | done _ =>
    intro s hs
    rw [List.mem_singleton.mp hs]
    exact refl m
  | raise _ =>
    intro s hs
    rw [List.mem_singleton.mp hs]
    exact refl m
  | look rest ih => exact ih m along
  | act effect rest ih =>
    intro s hs
    rcases List.mem_cons.mp hs with rfl | hs
    · exact refl s
    · exact trans (step along.1) (ih along.2 s hs)

/-- **What allowed effects keep holds between any two states of a run.** -/
theorem pairwise_states (along : x.Along P m) : (x.states m).Pairwise R := by
  induction x generalizing m with
  | done _ => exact List.pairwise_singleton _ _
  | raise _ => exact List.pairwise_singleton _ _
  | look rest ih => exact ih m along
  | act effect rest ih =>
    refine List.pairwise_cons.mpr ⟨fun s hs => ?_, ih along.2⟩
    exact trans (step along.1) (forall_states refl trans step along.2 s hs)

end

end Along

end Exec

end ScriptTrace
