import IntervalHdl.Removal.Alignment
import IntervalHdl.Removal.Lowering
import IntervalHdl.Removal.IntervalFree

/-!
# Removal of intervals

Turns interval arithmetic into signed integer arithmetic of the same numeric meaning: alignment,
then lowering, then type inference. `Aligner`, `Lowerer` and `Remover` live through many runs and
keep account of them.
-/

namespace IntervalHdl
set_option autoImplicit false

/-- An inference of types for whole circuits. -/
abbrev TypeInference := Circuit → Except TypingError Circuit

/-- What a removal does besides aligning and lowering. -/
structure RemovalOptions where
  /-- Infer all types anew after lowering. -/
  reinferTypes : Bool := true
  /-- Fail if an interval is left in the result. -/
  verifyOutput : Bool := true
  /-- Report wraps that take a remainder. -/
  warnOnRemainder : Bool := true
deriving DecidableEq

namespace Circuit

/-- Types the circuit, if the options ask for it. -/
def retype (options : RemovalOptions) (inference : TypeInference) (c : Circuit) :
    Except RemovalError Circuit :=
  if options.reinferTypes then (inference c).mapError .inference else .ok c

/-- Looks for intervals, if the options ask for it. -/
def verify (options : RemovalOptions) (c : Circuit) : Except RemovalError Unit :=
  if options.verifyOutput then c.checkIntervalFree else .ok ()

/-- The stages of a removal, in order. -/
def removeStages (options : RemovalOptions) (inference : TypeInference) (c : Circuit) :
    Reported RemovalError Circuit := do
  let aligned ← c.align
  let lowered ← aligned.lower options.warnOnRemainder
  let typed ← .ofExcept (lowered.retype options inference)
  .ofExcept (typed.verify options)
  return typed

/-- The circuit without intervals. A run that succeeds ends by telling its counts. -/
def removeIntervalsWith (options : RemovalOptions) (inference : TypeInference) (c : Circuit) :
    Reported RemovalError Circuit :=
  let run := c.removeStages options inference
  match run.outcome with
  | .ok result =>
    let summary := Event.removed result.modules.length run.report.tally
    { run with report := run.report ++ { events := [summary] } }
  | .error _ => run

/-- The circuit without intervals, by the options of choice. -/
def removeIntervals (c : Circuit) : Reported RemovalError Circuit :=
  c.removeIntervalsWith {} Circuit.infer

end Circuit

/-- An account of alignment runs. -/
structure Aligner where
  rescales : Nat := 0

namespace Aligner

/-- The account with another run in it. -/
def after {α : Type} (a : Aligner) (run : Reported RemovalError α) : Aligner :=
  ⟨a.rescales + run.report.tally.rescales⟩

/-- Aligns a circuit. -/
def run (a : Aligner) (c : Circuit) : Aligner × Reported RemovalError Circuit :=
  (a.after c.align, c.align)

/-- Rescales one expression. -/
def rescale (a : Aligner) (target : BitCount) (e : Expr) :
    Aligner × Reported RemovalError Expr :=
  (a.after (e.rescale target), e.rescale target)

end Aligner

/-- An account of lowering runs. -/
structure Lowerer where
  warn : Bool := false
  stats : Tally := {}

/-- Lowers a circuit. -/
def Lowerer.run (l : Lowerer) (c : Circuit) : Lowerer × Reported RemovalError Circuit :=
  let run := c.lower l.warn
  ({ l with stats := l.stats + run.report.tally }, run)

/-- A removal with its options, its inference and the counts of its latest successful run. -/
structure Remover where
  options : RemovalOptions := {}
  inference : TypeInference := Circuit.infer
  stats : Tally := {}

/-- Removes intervals from a circuit. A run that fails leaves the counts as they were. -/
def Remover.run (r : Remover) (c : Circuit) : Remover × Reported RemovalError Circuit :=
  let run := c.removeIntervalsWith r.options r.inference
  match run.outcome with
  | .ok _ => ({ r with stats := run.report.tally }, run)
  | .error _ => (r, run)

end IntervalHdl
