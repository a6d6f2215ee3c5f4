import Autodiff.Stopping
import Autodiff.Dialogue

namespace Autodiff

/-- Settings of the line search for the strong Wolfe conditions. -/
structure WolfeSettings (α : Type) where
  /-- Share of the initial slope that the decrease has to reach. -/
  c1 : α
  /-- Share of the initial slope that the final slope may keep. -/
  c2 : α
  /-- The largest step that is tried while looking for a bracket. -/
  maxStep : α
  maxBracket : Nat
  maxZoom : Nat

namespace WolfeSettings

def double : WolfeSettings Float := ⟨1e-4, 0.9, 1e10, 20, 30⟩

def single : WolfeSettings Float32 := ⟨1e-4, 0.9, 1e10, 20, 30⟩

end WolfeSettings

/-- One step along the search direction, with the value, the slope and the gradient there. -/
structure Trial (α : Type) where
  step : α
  value : α
  slope : α
  gradient : List α

/-- The step a line search settled on, and how many evaluations that took. -/
structure AcceptedStep (α : Type) where
  step : α
  value : α
  gradient : List α
  evaluations : Nat

variable {α : Type} [Scalar α]

def Trial.accept (t : Trial α) (evaluations : Nat) : AcceptedStep α :=
  ⟨t.step, t.value, t.gradient, evaluations⟩

/-- The line through `x` along `d`, with value and slope at its start. -/
structure Line (α : Type) where
  x : List α
  d : List α
  value : α
  slope : α
  params : WolfeSettings α

namespace Line

/-- Evaluates the objective one step along the line. -/
def probe (l : Line α) (step : α) : Dialogue α (Trial α) := do
  let reply ← Dialogue.evaluate (along l.x l.d step)
  return ⟨step, reply.value, dot reply.gradient l.d, reply.gradient⟩

/-- The first Wolfe condition. A value that is not finite never meets it. -/
def decreases (l : Line α) (t : Trial α) : Bool :=
  Scalar.isFinite t.value && t.value ≤ l.value + l.params.c1 * t.step * l.slope

/-- The second Wolfe condition. -/
def flattens (l : Line α) (t : Trial α) : Bool :=
  Scalar.abs t.slope ≤ -l.params.c2 * l.slope

end Line

/-- Where to try next inside a bracket: the minimum of the cubic through both ends, or the
midpoint when the cubic is unusable or its minimum lies too close to an end. -/
def interpolate (lo hi : Trial α) : α :=
  let (a, b) := if lo.step < hi.step then (lo, hi) else (hi, lo)
  let width := b.step - a.step
  let mid := a.step + width / Scalar.two
  let usable := Scalar.isFinite a.value && Scalar.isFinite b.value &&
    Scalar.isFinite a.slope && Scalar.isFinite b.slope
  if !usable || decide (width ≤ Scalar.epsilon * b.step) then mid
  else
    let d1 := a.slope + b.slope - Scalar.three * (b.value - a.value) / width
    let square := d1 * d1 - a.slope * b.slope
    if square < 0 then mid
    else
      let d2 := Scalar.sqrt square
      let t := b.step -
        width * (b.slope + d2 - d1) / (b.slope - a.slope + Scalar.two * d2)
      let margin := width * Scalar.ratio 1 10
      if !Scalar.isFinite t || decide (t < a.step + margin) || decide (b.step - margin < t) then mid
      else t

namespace Line

/-- The end of a bracket that did not lead further: its better end, unless that is the start. -/
def settle (lo : Trial α) (evaluations : Nat) : Option (AcceptedStep α) :=
  if 0 < lo.step then some (lo.accept evaluations) else none

/-- Shrinks a bracket until a trial meets both conditions. The end `lo` always meets the first
one and has the least value so far. -/
def zoom (l : Line α) : Nat → Trial α → Trial α → Nat → Dialogue α (Option (AcceptedStep α))
  | 0, lo, _, evaluations => return settle lo evaluations
  | rounds + 1, lo, hi, evaluations =>
    let step := interpolate lo hi
    if step == lo.step || step == hi.step then return settle lo evaluations
    else do
      let trial ← l.probe step
      if !l.decreases trial || decide (lo.value ≤ trial.value) then
        l.zoom rounds lo trial (evaluations + 1)
      else if l.flattens trial then
        return some (trial.accept (evaluations + 1))
      else if 0 ≤ trial.slope * (hi.step - lo.step) then
        l.zoom rounds trial lo (evaluations + 1)
      else
        l.zoom rounds trial hi (evaluations + 1)

/-- Doubles the step until it is acceptable, or until it and the step before it bracket an
acceptable one. On the first round there is no step before but the start of the line. -/
def bracket (l : Line α) : Nat → Bool → Trial α → α → Nat → Dialogue α (Option (AcceptedStep α))
  | 0, _, _, _, _ => return none
  | rounds + 1, first, previous, step, evaluations => do
    let trial ← l.probe step
    if !l.decreases trial || (!first && decide (previous.value ≤ trial.value)) then
      l.zoom l.params.maxZoom previous trial (evaluations + 1)
    else if l.flattens trial then
      return some (trial.accept (evaluations + 1))
    else if 0 ≤ trial.slope then
      l.zoom l.params.maxZoom trial previous (evaluations + 1)
    else if l.params.maxStep ≤ step then
      return none
    else
      let wider := Scalar.min (step * Scalar.two) l.params.maxStep
      l.bracket rounds false trial wider (evaluations + 1)

end Line

/-- Looks for a step along `d` that meets the strong Wolfe conditions, where `start` is the reply
at `x`. There is none when `d` does not lead downhill. -/
def strongWolfeStep (x d : List α) (start : Reply α) (step : α) (params : WolfeSettings α) :
    Dialogue α (Option (AcceptedStep α)) :=
  let slope := dot start.gradient d
  if decide (0 ≤ slope) || Scalar.isNaN slope then return none
  else
    let line : Line α := ⟨x, d, start.value, slope, params⟩
    line.bracket params.maxBracket true ⟨0, start.value, slope, start.gradient⟩ step 0

end Autodiff
