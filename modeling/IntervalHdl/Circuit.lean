import IntervalHdl.Stmt

/-!
# Circuits

A circuit is a list of modules, one of them the main one. A module that is implemented elsewhere
has ports but no body.
-/

namespace IntervalHdl
set_option autoImplicit false

/-- Which way a port carries its value. -/
inductive Direction where
  | input
  | output
deriving DecidableEq

/-- A connection point of a module. -/
structure Port where
  name : String
  direction : Direction
  ty : Ty

/-- A module. One without a body is implemented outside the circuit. -/
structure Module where
  name : String
  ports : List Port
  body? : Option Stmt

/-- Modules under the name of the main one. -/
structure Circuit where
  main : String
  modules : List Module

section Replacing

variable {m : Type → Type} [Monad m]

/-- Replaces the type of a port. -/
def Port.mapTyM (f : Ty → m Ty) (p : Port) : m Port := do return { p with ty := ← f p.ty }

/-- Replaces the ports, in order. -/
def Module.mapPortsM (f : Port → m Port) (d : Module) : m Module := do
  return { d with ports := ← d.ports.mapM f }

/-- Replaces the body; a module without one stays. -/
def Module.mapBodyM (f : Stmt → m Stmt) (d : Module) : m Module :=
  match d.body? with
  | some body => do return { d with body? := some (← f body) }
  | none => pure d

/-- Replaces the modules, in order. -/
def Circuit.mapModulesM (f : Module → m Module) (c : Circuit) : m Circuit := do
  return { c with modules := ← c.modules.mapM f }

end Replacing

/-- The first module of that name. -/
def Circuit.module? (c : Circuit) (name : String) : Option Module :=
  c.modules.find? (·.name == name)

end IntervalHdl
