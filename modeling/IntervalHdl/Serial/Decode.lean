import IntervalHdl.Removal
import IntervalHdl.Serial.Encode

/-!
# Reading circuits from JSON

Readers of the serialized form. They are more liberal than the writers: members that a record does
not know are passed over, a record may be an array of its fields, a variant without content may
stand over `null`, and a register need not mention that it has no reset.
-/

namespace IntervalHdl
set_option autoImplicit false

-- powers, of a typed exponent, are the core library's, whatever other instances are in scope
attribute [local instance (high)] instPowNat

namespace Json

/-- The bit count that the value is. -/
def bitCount? (j : Json) : Option BitCount := j.int?.bind BitCount.ofInt?

/-- The position or size that the value is. -/
def position? (j : Json) : Option UInt64 := (j.natBelow? (2 ^ (64 : Nat))).map UInt64.ofNat

/-- The list that the value is, each item read by `read`. -/
def list? {α : Type} (read : Json → Option α) (j : Json) : Option (List α) := do
  let items ← j.items?
  items.mapM fun item => read item.1

/-- The pair that the value is, each half read by `read`. -/
def pair? {α : Type} (read : Json → Option α) (j : Json) : Option (α × α) :=
  match j with
  | .arr [a, b] => do return (← read a, ← read b)
  | _ => none

end Json

/-- A sign from its number. -/
def signOfJson? (j : Json) : Option Int := do
  let v ← j.int?
  if v = -1 ∨ v = 0 ∨ v = 1 then some v else none

/-- An integer: sign times digits. -/
def intOfJson? (j : Json) : Option Int :=
  match j with
  | .arr [sign, digits] => do
    let sign ← signOfJson? sign
    let digits ← digits.list? (Json.natBelow? limbBase)
    return sign * ofLimbs digits
  | _ => none

/-- A fraction, as it stands. -/
def Fraction.ofJson? (j : Json) : Option Fraction := do
  let (num, den) ← j.pair? intOfJson?
  if h : den ≠ 0 then some ⟨num, den, h⟩ else none

/-- A width. -/
def Width.ofJson? (j : Json) : Option Width :=
  match j.variant? with
  | some ("Known", some n) => n.1.bitCount?.map .known
  | some ("Unknown", _) => j.unit?.map fun _ => .unknown
  | _ => none

/-- A bound. -/
def Bound.ofJson? (j : Json) : Option Bound :=
  match j.variant? with
  | some ("Known", some f) => (Fraction.ofJson? f.1).map .known
  | some ("Open", _) => j.unit?.map fun _ => .unbounded
  | _ => none

/-- An interval type. -/
def Interval.ofJson? (j : Json) : Option Interval :=
  match j.record? ["lower", "upper", "point", "width"] with
  | some [some lower, some upper, some point, some width] => do
    let lower ← Bound.ofJson? lower.1
    let upper ← Bound.ofJson? upper.1
    let point ← Width.ofJson? point.1
    let width ← Width.ofJson? width.1
    return ⟨lower, upper, point, width⟩
  | _ => none

/-- The operator of that name in serialized form. -/
def Operator.ofTag? (tag : String) : Option Operator := all.find? (·.tag == tag)

/-- An operator. -/
def Operator.ofJson? (j : Json) : Option Operator := j.unit?.bind ofTag?

/-- A type. -/
def Ty.ofJson? (j : Json) : Option Ty :=
  match j.variant? with
  | some ("UInt", some w) => (Width.ofJson? w.1).map .uint
  | some ("SInt", some w) => (Width.ofJson? w.1).map .sint
  | some ("Interval", some t) => (Interval.ofJson? t.1).map .interval
  | some ("Clock", _) => j.unit?.map fun _ => .clock
  | some ("Unknown", _) => j.unit?.map fun _ => .unknown
  | some ("Bundle", some ⟨content, _⟩) => do
    let items ← content.items?
    let fields ← items.mapM fun ⟨item, _⟩ =>
      match item.record? ["name", "flip", "ty"] with
      | some [some name, some flip, some ⟨ty, _⟩] => do
        let name ← name.1.str?
        let flip ← flip.1.bool?
        let ty ← Ty.ofJson? ty
        return ⟨name, flip, ty⟩
      | _ => none
    return .bundle fields
  | some ("Vector", some ⟨content, _⟩) =>
    match content.items? with
    | some [⟨elem, _⟩, size] => do
      let elem ← Ty.ofJson? elem
      let size ← size.1.position?
      return .vector elem size
    | _ => none
  | _ => none
termination_by sizeOf j

/-- An expression. -/
def Expr.ofJson? (j : Json) : Option Expr :=
  match j.variant? with
  | some ("Reference", some ⟨r, _⟩) => do
    let name ← (← r.member? "name").1.str?
    let ty ← Ty.ofJson? (← r.member? "ty").1
    return .ref name ty
  | some ("SubField", some ⟨r, _⟩) => do
    let ⟨parent, _⟩ ← r.member? "expr"
    let parent ← Expr.ofJson? parent
    let name ← (← r.member? "name").1.str?
    let ty ← Ty.ofJson? (← r.member? "ty").1
    return .field parent name ty
  | some ("SubIndex", some ⟨r, _⟩) => do
    let ⟨parent, _⟩ ← r.member? "expr"
    let parent ← Expr.ofJson? parent
    let position ← (← r.member? "index").1.position?
    let ty ← Ty.ofJson? (← r.member? "ty").1
    return .index parent position ty
  | some ("UIntLiteral", some ⟨r, _⟩) => do
    let value ← intOfJson? (← r.member? "value").1
    let width ← Width.ofJson? (← r.member? "width").1
    return .uint value width
  | some ("SIntLiteral", some ⟨r, _⟩) => do
    let value ← intOfJson? (← r.member? "value").1
    let width ← Width.ofJson? (← r.member? "width").1
    return .sint value width
  | some ("DoPrim", some ⟨r, _⟩) => do
    let op ← Operator.ofJson? (← r.member? "op").1
    let ⟨args, _⟩ ← r.member? "args"
    let items ← args.items?
    let args ← items.mapM fun ⟨item, _⟩ => Expr.ofJson? item
    let consts ← (← r.member? "consts").1.list? intOfJson?
    let ty ← Ty.ofJson? (← r.member? "ty").1
    return .prim op args consts ty
  | some ("Mux", some ⟨r, _⟩) => do
    let ⟨cond, _⟩ ← r.member? "cond"
    let ⟨tval, _⟩ ← r.member? "tval"
    let ⟨fval, _⟩ ← r.member? "fval"
    let cond ← Expr.ofJson? cond
    let tval ← Expr.ofJson? tval
    let fval ← Expr.ofJson? fval
    let ty ← Ty.ofJson? (← r.member? "ty").1
    return .mux cond tval fval ty
  | _ => none
termination_by sizeOf j

/-- A reset; `null` is none. -/
def Reset.ofJson? (j : Json) : Option (Option Reset) :=
  match j with
  | .null => some none
  | j =>
    match j.record? ["signal", "init"] with
    | some [some signal, some init] => do
      let signal ← Expr.ofJson? signal.1
      let init ← Expr.ofJson? init.1
      return some ⟨signal, init⟩
    | _ => none

/-- A statement. -/
def Stmt.ofJson? (j : Json) : Option Stmt :=
  match j.variant? with
  | some ("Wire", some ⟨r, _⟩) => do
    let name ← (← r.member? "name").1.str?
    let ty ← Ty.ofJson? (← r.member? "ty").1
    return .wire name ty
  | some ("Register", some ⟨r, _⟩) => do
    let name ← (← r.member? "name").1.str?
    let ty ← Ty.ofJson? (← r.member? "ty").1
    let clock ← Expr.ofJson? (← r.member? "clock").1
    let reset ← match r.member? "reset" with
      | some reset => Reset.ofJson? reset.1
      | none => some none
    return .reg name ty clock reset
  | some ("Node", some ⟨r, _⟩) => do
    let name ← (← r.member? "name").1.str?
    let value ← Expr.ofJson? (← r.member? "value").1
    return .node name value
  | some ("Connect", some ⟨r, _⟩) => do
    let loc ← Expr.ofJson? (← r.member? "loc").1
    let value ← Expr.ofJson? (← r.member? "expr").1
    return .connect loc value
  | some ("PartialConnect", some ⟨r, _⟩) => do
    let loc ← Expr.ofJson? (← r.member? "loc").1
    let value ← Expr.ofJson? (← r.member? "expr").1
    return .partialConnect loc value
  | some ("Conditionally", some ⟨r, _⟩) => do
    let cond ← Expr.ofJson? (← r.member? "pred").1
    let ⟨conseq, _⟩ ← r.member? "conseq"
    let ⟨alt, _⟩ ← r.member? "alt"
    let conseq ← Stmt.ofJson? conseq
    let alt ← Stmt.ofJson? alt
    return .when cond conseq alt
  | some ("Block", some ⟨content, _⟩) => do
    let items ← content.items?
    let stmts ← items.mapM fun ⟨item, _⟩ => Stmt.ofJson? item
    return .block stmts
  | some ("IsInvalid", some ⟨r, _⟩) => do
    let loc ← Expr.ofJson? (← r.member? "expr").1
    return .invalid loc
  | some ("Empty", _) => j.unit?.map fun _ => .skip
  | _ => none
termination_by sizeOf j

/-- A direction. -/
def Direction.ofJson? (j : Json) : Option Direction :=
  match j.unit? with
  | some "Input" => some .input
  | some "Output" => some .output
  | _ => none

/-- A port. -/
def Port.ofJson? (j : Json) : Option Port :=
  match j.record? ["name", "direction", "ty"] with
  | some [some name, some direction, some ty] => do
    let name ← name.1.str?
    let direction ← Direction.ofJson? direction.1
    let ty ← Ty.ofJson? ty.1
    return ⟨name, direction, ty⟩
  | _ => none

/-- A module. -/
def Module.ofJson? (j : Json) : Option Module :=
  match j.variant? with
  | some ("Module", some content) =>
    match content.1.record? ["name", "ports", "body"] with
    | some [some name, some ports, some body] => do
      let name ← name.1.str?
      let ports ← ports.1.list? Port.ofJson?
      let body ← Stmt.ofJson? body.1
      return ⟨name, ports, some body⟩
    | _ => none
  | some ("ExtModule", some content) =>
    match content.1.record? ["name", "ports"] with
    | some [some name, some ports] => do
      let name ← name.1.str?
      let ports ← ports.1.list? Port.ofJson?
      return ⟨name, ports, none⟩
    | _ => none
  | _ => none

/-- A circuit. -/
def Circuit.ofJson? (j : Json) : Option Circuit :=
  match j.record? ["main", "modules"] with
  | some [some main, some modules] => do
    let main ← main.1.str?
    let modules ← modules.1.list? Module.ofJson?
    return ⟨main, modules⟩
  | _ => none

namespace RemovalOptions

/-- An option that may be left out: it is on by default. -/
def flag? : Option Json → Option Bool
  | none => some true
  | some j => j.bool?

/-- Options, from those that are mentioned. As an array they may end early. -/
def ofJson? (j : Json) : Option RemovalOptions :=
  let read (reinfer verify warn : Option Json) : Option RemovalOptions := do
    return ⟨← flag? reinfer, ← flag? verify, ← flag? warn⟩
  match j with
  | .obj _ =>
    let member (name : String) : Option Json := (j.member? name).map fun part => part.1
    read (member "reinfer_types") (member "verify_output") (member "warn_on_remainder_wrap")
  | .arr [] => read none none none
  | .arr [a] => read (some a) none none
  | .arr [a, b] => read (some a) (some b) none
  | .arr [a, b, c] => read (some a) (some b) (some c)
  | _ => none

end RemovalOptions

end IntervalHdl
