import IntervalHdl.Circuit
import IntervalHdl.Serial.Json

/-!
# Writing circuits as JSON

The serialized form of every part of a circuit. A variant without content is its name; one with
content is an object whose only key is its name; a record is an object of its fields. An integer is
a pair of its sign and its digits in base `2 ^ 32`, least significant first; a fraction is the pair
of its numerator and denominator as they stand.
-/

namespace IntervalHdl
set_option autoImplicit false

/-- The base of the digits of a serialized integer. -/
def limbBase : Nat := 4294967296

/-- The digits of a natural number in base `limbBase`, least significant first; zero has none. -/
def limbs (n : Nat) : List Nat :=
  if _h : n = 0 then [] else n % limbBase :: limbs (n / limbBase)
termination_by n
decreasing_by exact Nat.div_lt_self (Nat.pos_of_ne_zero _h) (by decide)

/-- A natural number from its digits in base `limbBase`. -/
def ofLimbs (digits : List Nat) : Nat := digits.foldr (fun d n => d + limbBase * n) 0

/-- Digits read back as the number they were taken from. -/
theorem ofLimbs_limbs (n : Nat) : ofLimbs (limbs n) = n := by
  induction n using Nat.strongRecOn with
  | ind n ih =>
    rw [limbs]
    split
    · rename_i zero; simp [ofLimbs, zero]
    · rename_i nonzero
      have back := ih (n / limbBase) (Nat.div_lt_self (Nat.pos_of_ne_zero nonzero) (by decide))
      simp only [ofLimbs, List.foldr_cons] at back ⊢
      rw [back]
      exact Nat.mod_add_div n limbBase

theorem lt_limbBase_of_mem_limbs {n d : Nat} (mem : d ∈ limbs n) : d < limbBase := by
  induction n using Nat.strongRecOn with
  | ind n ih =>
    rw [limbs] at mem
    split at mem
    · cases mem
    · rename_i nonzero
      rcases List.mem_cons.mp mem with rfl | mem
      · exact Nat.mod_lt _ (by decide)
      · exact ih _ (Nat.div_lt_self (Nat.pos_of_ne_zero nonzero) (by decide)) mem

/-- The serialized form of an integer. -/
def intToJson (v : Int) : Json :=
  .arr [.int v.sign, .arr ((limbs v.natAbs).map fun (d : Nat) => .int d)]

/-- The serialized form of a fraction. -/
def Fraction.toJson (f : Fraction) : Json := .arr [intToJson f.num, intToJson f.den]

/-- The serialized form of a width. -/
def Width.toJson : Width → Json
  | .known n => .variant "Known" (.int n.toNat)
  | .unknown => .str "Unknown"

/-- The serialized form of a bound. -/
def Bound.toJson : Bound → Json
  | .known f => .variant "Known" f.toJson
  | .unbounded => .str "Open"

/-- The serialized form of an interval type. -/
def Interval.toJson (t : Interval) : Json :=
  .obj [("lower", t.lower.toJson), ("upper", t.upper.toJson), ("point", t.point.toJson),
    ("width", t.width.toJson)]

/-- The name of an operator in serialized form. -/
def Operator.tag : Operator → String
  | .add => "Add"
  | .sub => "Sub"
  | .mul => "Mul"
  | .div => "Div"
  | .rem => "Rem"
  | .lt => "Lt"
  | .leq => "Leq"
  | .gt => "Gt"
  | .geq => "Geq"
  | .eq => "Eq"
  | .neq => "Neq"
  | .pad => "Pad"
  | .asUInt => "AsUInt"
  | .asSInt => "AsSInt"
  | .shl => "Shl"
  | .shr => "Shr"
  | .dshl => "Dshl"
  | .dshr => "Dshr"
  | .cvt => "Cvt"
  | .neg => "Neg"
  | .not => "Not"
  | .and => "And"
  | .or => "Or"
  | .xor => "Xor"
  | .andr => "Andr"
  | .orr => "Orr"
  | .xorr => "Xorr"
  | .cat => "Cat"
  | .bits => "Bits"
  | .head => "Head"
  | .tail => "Tail"
  | .asInterval => "AsInterval"
  | .incp => "IncP"
  | .decp => "DecP"
  | .setp => "SetP"
  | .wrap => "Wrap"
  | .clip => "Clip"

/-- The serialized form of an operator. -/
def Operator.toJson (op : Operator) : Json := .str op.tag

namespace Ty

mutual

/-- The serialized form of a type. -/
def toJson : Ty → Json
  | .uint w => .variant "UInt" w.toJson
  | .sint w => .variant "SInt" w.toJson
  | .interval t => .variant "Interval" t.toJson
  | .clock => .str "Clock"
  | .bundle fields => .variant "Bundle" (.arr (fieldsToJson fields))
  | .vector elem size => .variant "Vector" (.arr [elem.toJson, .int size.toNat])
  | .unknown => .str "Unknown"

/-- The serialized forms of fields. -/
def fieldsToJson : List (Field Ty) → List Json
  | [] => []
  | ⟨name, flip, ty⟩ :: fields =>
    .obj [("name", .str name), ("flip", .bool flip), ("ty", ty.toJson)] :: fieldsToJson fields

end

end Ty

namespace Expr

mutual

/-- The serialized form of an expression. -/
def toJson : Expr → Json
  | .ref name ty => .variant "Reference" (.obj [("name", .str name), ("ty", ty.toJson)])
  | .field parent name ty =>
    .variant "SubField"
      (.obj [("expr", parent.toJson), ("name", .str name), ("ty", ty.toJson)])
  | .index parent position ty =>
    .variant "SubIndex"
      (.obj [("expr", parent.toJson), ("index", .int position.toNat), ("ty", ty.toJson)])
  | .uint value width =>
    .variant "UIntLiteral" (.obj [("value", intToJson value), ("width", width.toJson)])
  | .sint value width =>
    .variant "SIntLiteral" (.obj [("value", intToJson value), ("width", width.toJson)])
  | .prim op args consts ty =>
    .variant "DoPrim"
      (.obj [("op", op.toJson), ("args", .arr (listToJson args)),
        ("consts", .arr (consts.map intToJson)), ("ty", ty.toJson)])
  | .mux cond tval fval ty =>
    .variant "Mux"
      (.obj [("cond", cond.toJson), ("tval", tval.toJson), ("fval", fval.toJson),
        ("ty", ty.toJson)])

/-- The serialized forms of expressions. -/
def listToJson : List Expr → List Json
  | [] => []
  | e :: es => e.toJson :: listToJson es

end

end Expr

/-- The serialized form of a reset. -/
def Reset.toJson : Option Reset → Json
  | none => .null
  | some reset => .obj [("signal", reset.signal.toJson), ("init", reset.init.toJson)]

namespace Stmt

mutual

/-- The serialized form of a statement. -/
def toJson : Stmt → Json
  | .wire name ty => .variant "Wire" (.obj [("name", .str name), ("ty", ty.toJson)])
  | .reg name ty clock reset =>
    .variant "Register"
      (.obj [("name", .str name), ("ty", ty.toJson), ("clock", clock.toJson),
        ("reset", Reset.toJson reset)])
  | .node name value => .variant "Node" (.obj [("name", .str name), ("value", value.toJson)])
  | .connect loc value =>
    .variant "Connect" (.obj [("loc", loc.toJson), ("expr", value.toJson)])
  | .partialConnect loc value =>
    .variant "PartialConnect" (.obj [("loc", loc.toJson), ("expr", value.toJson)])
  | .when cond conseq alt =>
    .variant "Conditionally"
      (.obj [("pred", cond.toJson), ("conseq", conseq.toJson), ("alt", alt.toJson)])
  | .block stmts => .variant "Block" (.arr (listToJson stmts))
  | .invalid loc => .variant "IsInvalid" (.obj [("expr", loc.toJson)])
  | .skip => .str "Empty"

/-- The serialized forms of statements. -/
def listToJson : List Stmt → List Json
  | [] => []
  | s :: stmts => s.toJson :: listToJson stmts

end

end Stmt

/-- The serialized form of a direction. -/
def Direction.toJson : Direction → Json
  | .input => .str "Input"
  | .output => .str "Output"

/-- The serialized form of a port. -/
def Port.toJson (p : Port) : Json :=
  .obj [("name", .str p.name), ("direction", p.direction.toJson), ("ty", p.ty.toJson)]

/-- The serialized form of a module. -/
def Module.toJson (d : Module) : Json :=
  let ports := Json.arr (d.ports.map Port.toJson)
  match d.body? with
  | some body =>
    .variant "Module" (.obj [("name", .str d.name), ("ports", ports), ("body", body.toJson)])
  | none => .variant "ExtModule" (.obj [("name", .str d.name), ("ports", ports)])

/-- The serialized form of a circuit. -/
def Circuit.toJson (c : Circuit) : Json :=
  .obj [("main", .str c.main), ("modules", .arr (c.modules.map Module.toJson))]

end IntervalHdl
