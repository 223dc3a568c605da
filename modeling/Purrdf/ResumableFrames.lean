import Mathlib.Data.List.Basic

/-!
# Machines of resumable frames

A work list of frames. The top frame is stepped, with the value of the frame it last
called or with none on its first step, and either calls a frame or returns a value to the
frame beneath it. `Yields` is the total-correctness judgement of one frame: whatever lies
beneath it, the machine comes to its return, and the value and the state it leaves satisfy
the postcondition.
-/

namespace Purrdf.Frames

/-- What a frame asks of the machine after one step. -/
inductive Step (F V : Type) where
  | call (callee : F)
  | ret (value : V)

/-- `step` of a frame, of the value it is resumed with and of the state; the frame it
leaves is the one a call suspends. `none` is a panic. -/
structure Machine (F V S : Type) where
  step : F → Option V → S → Option (Step F V × F × S)

namespace Machine

variable {F V S : Type} (m : Machine F V S)

def run : Nat → List F → Option V → S → Option (V × S)
  | _, [], returned, state => returned.map (·, state)
  | 0, _ :: _, _, _ => none
  | fuel + 1, top :: below, returned, state =>
    match m.step top returned state with
    | none => none
    | some (.call callee, top, state) => run fuel (callee :: top :: below) none state
    | some (.ret value, _, state) => run fuel below (some value) state

/-- Resumed with `returned` in `state`, the frame comes to a return that satisfies `post`. -/
def Yields (frame : F) (returned : Option V) (state : S) (post : V → S → Prop) : Prop :=
  ∃ value after steps, post value after ∧ ∀ fuel below,
    m.run (fuel + steps) (frame :: below) returned state = m.run fuel below (some value) after

variable {m} {frame frame' callee : F} {returned : Option V} {state state' : S} {value : V}
  {post mid : V → S → Prop}

theorem yields_ret (step : m.step frame returned state = some (.ret value, frame', state'))
    (holds : post value state') : m.Yields frame returned state post := by
  refine ⟨value, state', 1, holds, ?_⟩
  intro fuel below
  simp [run, step]

theorem yields_call (step : m.step frame returned state = some (.call callee, frame', state'))
    (calls : m.Yields callee none state' mid)
    (resumes : ∀ value after, mid value after → m.Yields frame' (some value) after post) :
    m.Yields frame returned state post := by
  obtain ⟨answer, between, first, holds, called⟩ := calls
  obtain ⟨value, after, second, holds, resumed⟩ := resumes answer between holds
  refine ⟨value, after, second + first + 1, holds, ?_⟩
  intro fuel below
  rw [show fuel + (second + first + 1) = fuel + second + first + 1 by omega]
  simp [run, step, called, resumed]

theorem Yields.mono (yields : m.Yields frame returned state mid)
    (weaker : ∀ value after, mid value after → post value after) :
    m.Yields frame returned state post := by
  obtain ⟨value, after, steps, holds, runs⟩ := yields
  exact ⟨value, after, steps, weaker value after holds, runs⟩

variable (m) in
/-- What one step left comes to a return that satisfies `post`: it returned, or the frame it
called returns what the frame it suspended goes on from. -/
def Continues (turn : Option (Step F V × F × S)) (post : V → S → Prop) : Prop :=
  match turn with
  | none => False
  | some (.ret value, _, after) => post value after
  | some (.call callee, suspended, after) =>
    m.Yields callee none after fun value later => m.Yields suspended (some value) later post

theorem Yields.of_step (continues : m.Continues (m.step frame returned state) post) :
    m.Yields frame returned state post := by
  unfold Continues at continues
  split at continues
  · exact continues.elim
  · rename_i step
    exact yields_ret step continues
  · rename_i step
    exact yields_call step continues fun _ _ resumes => resumes

theorem Yields.run (yields : m.Yields frame none state post) :
    ∃ value after steps, post value after ∧
      ∀ fuel, m.run (fuel + steps) [frame] none state = some (value, after) := by
  obtain ⟨value, after, steps, holds, runs⟩ := yields
  refine ⟨value, after, steps, holds, ?_⟩
  intro fuel
  rw [runs]
  cases fuel <;> rfl

end Machine

end Purrdf.Frames
