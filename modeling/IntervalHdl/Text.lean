import IntervalHdl.Circuit
import IntervalHdl.Number.Decimal

/-!
# The text of circuits

How every part of a circuit is written. Statements and modules are written as lines, indented by
two spaces a level; the text ends each line with a line break.
-/

namespace IntervalHdl
set_option autoImplicit false

/-- A known width in angle brackets; an unknown one is not written. -/
def Width.text : Width → String
  | .known n => "<" ++ natText n.toNat ++ ">"
  | .unknown => ""

/-- The characters of a bound: its exact number, or a question mark. -/
def Bound.chars : Bound → List Char
  | .known f => Decimal.ofFraction f
  | .unbounded => ['?']

/-- The text of a bound. -/
def Bound.text (b : Bound) : String := String.ofList b.chars

/-- Bounds in brackets, then a dot and the point if it is known. -/
def Interval.text (t : Interval) : String :=
  "Interval[" ++ t.lower.text ++ ", " ++ t.upper.text ++ "]" ++
    match t.point with
    | .known p => "." ++ natText p.toNat
    | .unknown => ""

namespace Ty

mutual

/-- The text of a type. -/
def text : Ty → String
  | .uint w => "UInt" ++ w.text
  | .sint w => "SInt" ++ w.text
  | .interval t => t.text
  | .clock => "Clock"
  | .bundle fields => "\x7b " ++ ", ".intercalate (fieldTexts fields) ++ " \x7d"
  | .vector elem size => elem.text ++ "[" ++ natText size.toNat ++ "]"
  | .unknown => "?"

/-- The texts of fields, each with its name and type. -/
def fieldTexts : List (Field Ty) → List String
  | [] => []
  | ⟨name, flip, ty⟩ :: fields =>
    ((if flip then "flip " else "") ++ name ++ " : " ++ ty.text) :: fieldTexts fields

end

end Ty

namespace Expr

mutual

/-- The text of an expression. Recorded types are not written. -/
def text : Expr → String
  | .ref name _ => name
  | .field parent name _ => parent.text ++ "." ++ name
  | .index parent position _ => parent.text ++ "[" ++ natText position.toNat ++ "]"
  | .uint value width => "UInt" ++ width.text ++ "(" ++ intText value ++ ")"
  | .sint value width => "SInt" ++ width.text ++ "(" ++ intText value ++ ")"
  | .prim op args consts _ =>
    op.name ++ "(" ++ ", ".intercalate (texts args ++ consts.map intText) ++ ")"
  | .mux cond tval fval _ =>
    "mux(" ++ cond.text ++ ", " ++ tval.text ++ ", " ++ fval.text ++ ")"

/-- The texts of expressions. -/
def texts : List Expr → List String
  | [] => []
  | e :: es => e.text :: texts es

end

end Expr

/-- Two spaces a level. -/
def indent (depth : Nat) : String := String.join (List.replicate depth "  ")

/-- A text of lines, each ended by a line break. -/
def unlines (lines : List String) : String := String.join (lines.map (· ++ "\n"))

/-- The clause that says when a register is reset. -/
def Reset.clause : Option Reset → String
  | none => ""
  | some reset => " with : (reset => (" ++ reset.signal.text ++ ", " ++ reset.init.text ++ "))"

namespace Stmt

/-- Holds of the statement that does nothing. -/
def isSkip : Stmt → Bool
  | .skip => true
  | _ => false

mutual

/-- The lines of a statement at a depth. A block is written as its statements; an alternative that
does nothing is left out. -/
def lines (depth : Nat) : Stmt → List String
  | .wire name ty => [indent depth ++ "wire " ++ name ++ " : " ++ ty.text]
  | .reg name ty clock reset =>
    [indent depth ++ "reg " ++ name ++ " : " ++ ty.text ++ ", " ++ clock.text ++
      Reset.clause reset]
  | .node name value => [indent depth ++ "node " ++ name ++ " = " ++ value.text]
  | .connect loc value => [indent depth ++ loc.text ++ " <= " ++ value.text]
  | .partialConnect loc value => [indent depth ++ loc.text ++ " <- " ++ value.text]
  | .when cond conseq alt =>
    (indent depth ++ "when " ++ cond.text ++ " :") :: conseq.lines (depth + 1) ++
      if alt.isSkip then [] else (indent depth ++ "else :") :: alt.lines (depth + 1)
  | .block stmts => linesOfAll depth stmts
  | .invalid loc => [indent depth ++ loc.text ++ " is invalid"]
  | .skip => [indent depth ++ "skip"]

/-- The lines of statements, one after the other. -/
def linesOfAll (depth : Nat) : List Stmt → List String
  | [] => []
  | s :: stmts => s.lines depth ++ linesOfAll depth stmts

end

/-- The text of a statement. -/
def text (s : Stmt) : String := unlines (s.lines 0)

end Stmt

/-- How a direction is written. -/
def Direction.name : Direction → String
  | .input => "input"
  | .output => "output"

/-- The line of a port. -/
def Port.line (depth : Nat) (p : Port) : String :=
  indent depth ++ p.direction.name ++ " " ++ p.name ++ " : " ++ p.ty.text

/-- The lines of a module: its ports, then an empty line and the body if there is one. -/
def Module.lines (depth : Nat) (d : Module) : List String :=
  match d.body? with
  | some body =>
    (indent depth ++ "module " ++ d.name ++ " :") :: d.ports.map (Port.line (depth + 1)) ++
      "" :: body.lines (depth + 1)
  | none =>
    (indent depth ++ "extmodule " ++ d.name ++ " :") :: d.ports.map (Port.line (depth + 1))

/-- The text of a module. -/
def Module.text (d : Module) : String := unlines (d.lines 0)

/-- The text of a circuit. -/
def Circuit.text (c : Circuit) : String :=
  unlines (("circuit " ++ c.main ++ " :") :: c.modules.flatMap (Module.lines 1))

end IntervalHdl
