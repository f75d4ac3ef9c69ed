import IntervalHdl.Removal

/-!
# Passes

A pass is a named transformation of whole circuits; it hands back a new circuit or fails without a
partial one. A pipeline runs passes one after the other and stops at the first that fails.
-/

namespace IntervalHdl
set_option autoImplicit false

/-- Why a pass failed. -/
inductive PassError where
  | removal (cause : RemovalError)
  | typing (cause : TypingError)
  | other (message : String)

/-- The message for a cause. -/
def PassError.message : PassError → String
  | .removal cause => cause.message
  | .typing cause => cause.message
  | .other message => message

/-- A transformation of whole circuits. -/
structure Pass where
  name : String
  description : String := "No description provided"
  transform : Circuit → Reported PassError Circuit

/-- The removal of intervals as a pass. -/
def Pass.removeIntervals : Pass where
  name := "remove-intervals"
  description := "Lower fixed-point interval types and operators to signed integer arithmetic"
  transform c := c.removeIntervals.mapError .removal

/-- Type inference as a pass. -/
def Pass.inferTypes : Pass where
  name := "infer-types"
  description := "Recompute expression types bottom-up from declarations and operand types"
  transform c := .ofExcept (c.infer.mapError .typing)

/-- A pass that was run, with what came of it. -/
structure PassRun where
  pass : Pass
  result : Reported PassError Circuit

/-- Runs passes in order, each on the result of the one before, up to the first that fails. -/
def runPasses : List Pass → Circuit → List PassRun
  | [], _ => []
  | pass :: passes, c =>
    let result := pass.transform c
    ⟨pass, result⟩ :: match result.outcome with
      | .ok next => runPasses passes next
      | .error _ => []

end IntervalHdl
