import IntervalHdl.Serial.Decode

/-!
# Reading back what was written

Every reader of the serialized form undoes its writer, field for field: nothing is normalised on
the way, neither fractions nor recorded widths. The readers reach their parts through views of the
tree, so each layout that a writer produces gets one equation that says how it is read; a value is
then read back by induction over its syntax.
-/

namespace IntervalHdl
set_option autoImplicit false

open Json (variant)

/-- The reader gives back every value that was written, and no two values are written alike. -/
structure Undoes {α : Type} (read : Json → Option α) (write : α → Json) : Prop where
  back : ∀ a, read (write a) = some a
  distinct : Function.Injective write

theorem Undoes.of_back {α : Type} {read : Json → Option α} {write : α → Json}
    (back : ∀ a, read (write a) = some a) : Undoes read write where
  back := back
  distinct a b same := by
    have := congrArg read same
    rw [back, back] at this
    exact Option.some.inj this

namespace Json

/-- The parts of an array are read as its items are. -/
theorem list?_arr {α : Type} (read : Json → Option α) (items : List Json) :
    (Json.arr items).list? read = items.mapM read := by
  have parts : items.attach.mapM (read ∘ Subtype.val) = items.mapM read := by
    rw [← List.mapM_map, List.attach_map_subtype_val]
  exact List.mapM_map.trans parts

/-- A list is read back where every item is. -/
theorem mapM_map_eq_some {α : Type} {read : Json → Option α} {write : α → Json} {as : List α}
    (back : ∀ a ∈ as, read (write a) = some a) : (as.map write).mapM read = some as := by
  induction as with
  | nil => rfl
  | cons a as ih =>
    have rest := ih fun a mem => back a (List.mem_cons_of_mem _ mem)
    simp [back a List.mem_cons_self, rest]

/-- A written list is read back member by member. -/
theorem list?_map {α : Type} {read : Json → Option α} {write : α → Json}
    (back : ∀ a, read (write a) = some a) (as : List α) :
    (Json.arr (as.map write)).list? read = some as := by
  rw [list?_arr, mapM_map_eq_some fun a _ => back a]

@[simp] theorem str?_str (s : String) : (Json.str s).str? = some s := rfl

@[simp] theorem bool?_bool (b : Bool) : (Json.bool b).bool? = some b := rfl

/-- A bit count is written as its number. -/
@[simp] theorem bitCount?_toNat (n : BitCount) : (Json.int n.toNat).bitCount? = some n := by
  simp [bitCount?, int?, BitCount.ofInt?_eq_some_iff]

theorem natBelow?_int {limit n : Nat} (below : n < limit) :
    (Json.int n).natBelow? limit = some n := by
  simp [natBelow?, below]

@[simp] theorem position?_toNat (n : UInt64) : (Json.int n.toNat).position? = some n := by
  rw [position?, natBelow?_int n.toNat_lt]
  simp

end Json

/-! ### Numbers -/

/-- The sign of an integer is read back from its code. -/
theorem signOfJson?_sign (v : Int) : signOfJson? (.int v.sign) = some v.sign := by
  have one : v.sign = -1 ∨ v.sign = 0 ∨ v.sign = 1 := by
    rcases Int.lt_trichotomy v 0 with neg | rfl | pos
    · exact .inl (Int.sign_eq_neg_one_of_neg neg)
    · exact .inr (.inl rfl)
    · exact .inr (.inr (Int.sign_eq_one_of_pos pos))
  simp only [signOfJson?, Json.int?, Option.bind_eq_bind, Option.bind_some, if_pos one]

/-- The limbs of a number are read back as they are written. -/
theorem limbs_read_back (n : Nat) :
    (Json.arr ((limbs n).map fun (d : Nat) => .int d)).list? (Json.natBelow? limbBase) =
      some (limbs n) := by
  rw [Json.list?_arr]
  exact Json.mapM_map_eq_some fun d mem => Json.natBelow?_int (lt_limbBase_of_mem_limbs mem)

/-- An integer of any size and sign is its sign times its digits. -/
@[simp] theorem intOfJson?_intToJson (v : Int) : intOfJson? (intToJson v) = some v := by
  simp only [intToJson, intOfJson?, signOfJson?_sign, limbs_read_back, ofLimbs_limbs,
    Option.bind_eq_bind, Option.bind_some, Option.pure_def, Int.sign_mul_natAbs]

@[simp] theorem Fraction.ofJson?_toJson (f : Fraction) : Fraction.ofJson? f.toJson = some f := by
  simp [toJson, ofJson?, Json.pair?, f.den_ne_zero]

@[simp] theorem Width.ofJson?_toJson (w : Width) : Width.ofJson? w.toJson = some w := by
  cases w with
  | known n =>
    show (Json.int n.toNat).bitCount?.map Width.known = _
    rw [Json.bitCount?_toNat]
    rfl
  | unknown => rfl

@[simp] theorem Bound.ofJson?_toJson (b : Bound) : Bound.ofJson? b.toJson = some b := by
  cases b with
  | known f =>
    show (Fraction.ofJson? f.toJson).map Bound.known = _
    rw [Fraction.ofJson?_toJson]
    rfl
  | unbounded => rfl

@[simp] theorem Interval.ofJson?_toJson (t : Interval) :
    Interval.ofJson? t.toJson = some t := by
  show (do
    let lower ← Bound.ofJson? t.lower.toJson
    let upper ← Bound.ofJson? t.upper.toJson
    let point ← Width.ofJson? t.point.toJson
    let width ← Width.ofJson? t.width.toJson
    return ⟨lower, upper, point, width⟩ : Option Interval) = _
  simp

@[simp] theorem Operator.ofJson?_toJson (op : Operator) :
    Operator.ofJson? op.toJson = some op := by
  cases op <;> rfl

/-! ### Types -/

namespace Ty

/-- A field, from the record of its members. -/
def fieldOfJson? (j : Json) : Option (Field Ty) :=
  match j.record? ["name", "flip", "ty"] with
  | some [some name, some flip, some ⟨ty, _⟩] => do
    let name ← name.1.str?
    let flip ← flip.1.bool?
    let ty ← Ty.ofJson? ty
    return ⟨name, flip, ty⟩
  | _ => none

/-- The serialized form of a field. -/
def fieldToJson (field : Field Ty) : Json :=
  .obj [("name", .str field.name), ("flip", .bool field.flip), ("ty", field.ty.toJson)]

/-- Fields are written in order. -/
theorem fieldsToJson_eq_map (fields : List (Field Ty)) :
    fieldsToJson fields = fields.map fieldToJson := by
  induction fields with
  | nil => rfl
  | cons field fields ih => rw [fieldsToJson, ih]; rfl

/-- A field is read back if its type is. -/
theorem fieldOfJson?_fieldToJson {field : Field Ty}
    (back : Ty.ofJson? field.ty.toJson = some field.ty) :
    fieldOfJson? (fieldToJson field) = some field := by
  show (do
    let ty ← Ty.ofJson? field.ty.toJson
    return ⟨field.name, field.flip, ty⟩ : Option (Field Ty)) = _
  rw [back]
  rfl

theorem ofJson?_uint (w : Json) :
    Ty.ofJson? (variant "UInt" w) = (Width.ofJson? w).map .uint := by
  rw [Ty.ofJson?]; rfl

theorem ofJson?_sint (w : Json) :
    Ty.ofJson? (variant "SInt" w) = (Width.ofJson? w).map .sint := by
  rw [Ty.ofJson?]; rfl

theorem ofJson?_interval (t : Json) :
    Ty.ofJson? (variant "Interval" t) = (Interval.ofJson? t).map .interval := by
  rw [Ty.ofJson?]; rfl

theorem ofJson?_bundle (items : List Json) :
    Ty.ofJson? (variant "Bundle" (.arr items)) = (do
      let fields ← items.mapM fieldOfJson?
      return .bundle fields) := by
  rw [Ty.ofJson?, ← Json.list?_arr]; rfl

theorem ofJson?_vector (elem size : Json) :
    Ty.ofJson? (variant "Vector" (.arr [elem, size])) = (do
      let elem ← Ty.ofJson? elem
      let size ← size.position?
      return .vector elem size) := by
  rw [Ty.ofJson?]; rfl

/-- A type is read back, by induction on its fields and elements. -/
@[simp] theorem ofJson?_toJson (t : Ty) : Ty.ofJson? t.toJson = some t := by
  induction t with
  | uint w => simp [toJson, ofJson?_uint]
  | sint w => simp [toJson, ofJson?_sint]
  | interval t => simp [toJson, ofJson?_interval]
  | clock => rw [Ty.ofJson?]; rfl
  | bundle fields each =>
    have back := Json.mapM_map_eq_some fun field mem => fieldOfJson?_fieldToJson (each field mem)
    simp [toJson, ofJson?_bundle, fieldsToJson_eq_map, back]
  | vector elem size ih => simp [toJson, ofJson?_vector, ih]
  | unknown => rw [Ty.ofJson?]; rfl

end Ty

/-! ### Expressions -/

namespace Expr

theorem ofJson?_ref (name ty : Json) :
    Expr.ofJson? (variant "Reference" (.obj [("name", name), ("ty", ty)])) = (do
      let name ← name.str?
      let ty ← Ty.ofJson? ty
      return .ref name ty) := by
  rw [Expr.ofJson?]; rfl

theorem ofJson?_field (parent name ty : Json) :
    Expr.ofJson? (variant "SubField" (.obj [("expr", parent), ("name", name), ("ty", ty)])) = (do
      let parent ← Expr.ofJson? parent
      let name ← name.str?
      let ty ← Ty.ofJson? ty
      return .field parent name ty) := by
  rw [Expr.ofJson?]; rfl

theorem ofJson?_index (parent position ty : Json) :
    Expr.ofJson? (variant "SubIndex"
      (.obj [("expr", parent), ("index", position), ("ty", ty)])) = (do
      let parent ← Expr.ofJson? parent
      let position ← position.position?
      let ty ← Ty.ofJson? ty
      return .index parent position ty) := by
  rw [Expr.ofJson?]; rfl

theorem ofJson?_uint (value width : Json) :
    Expr.ofJson? (variant "UIntLiteral" (.obj [("value", value), ("width", width)])) = (do
      let value ← intOfJson? value
      let width ← Width.ofJson? width
      return .uint value width) := by
  rw [Expr.ofJson?]; rfl

theorem ofJson?_sint (value width : Json) :
    Expr.ofJson? (variant "SIntLiteral" (.obj [("value", value), ("width", width)])) = (do
      let value ← intOfJson? value
      let width ← Width.ofJson? width
      return .sint value width) := by
  rw [Expr.ofJson?]; rfl

theorem ofJson?_prim (op consts ty : Json) (args : List Json) :
    Expr.ofJson? (variant "DoPrim"
      (.obj [("op", op), ("args", .arr args), ("consts", consts), ("ty", ty)])) = (do
      let op ← Operator.ofJson? op
      let args ← args.mapM Expr.ofJson?
      let consts ← consts.list? intOfJson?
      let ty ← Ty.ofJson? ty
      return .prim op args consts ty) := by
  rw [Expr.ofJson?, ← Json.list?_arr]; rfl

theorem ofJson?_mux (cond tval fval ty : Json) :
    Expr.ofJson? (variant "Mux"
      (.obj [("cond", cond), ("tval", tval), ("fval", fval), ("ty", ty)])) = (do
      let cond ← Expr.ofJson? cond
      let tval ← Expr.ofJson? tval
      let fval ← Expr.ofJson? fval
      let ty ← Ty.ofJson? ty
      return .mux cond tval fval ty) := by
  rw [Expr.ofJson?]; rfl

/-- Expressions are written in order. -/
theorem listToJson_eq_map (es : List Expr) : listToJson es = es.map toJson := by
  induction es with
  | nil => rfl
  | cons e es ih => rw [listToJson, ih, List.map_cons]

/-- An expression is read back with all types recorded on its nodes. -/
@[simp] theorem ofJson?_toJson (e : Expr) : Expr.ofJson? e.toJson = some e := by
  induction e with
  | ref name ty => simp [toJson, ofJson?_ref]
  | field parent name ty ih => simp [toJson, ofJson?_field, ih]
  | index parent position ty ih => simp [toJson, ofJson?_index, ih]
  | uint value width => simp [toJson, ofJson?_uint]
  | sint value width => simp [toJson, ofJson?_sint]
  | prim op args consts ty each =>
    simp [toJson, ofJson?_prim, listToJson_eq_map, Json.mapM_map_eq_some each,
      Json.list?_map intOfJson?_intToJson]
  | mux cond tval fval ty condIh tvalIh fvalIh =>
    simp [toJson, ofJson?_mux, condIh, tvalIh, fvalIh]

end Expr

/-! ### Statements -/

/-- A reset, or that there is none, is read back. -/
@[simp] theorem Reset.ofJson?_toJson (reset : Option Reset) :
    Reset.ofJson? (Reset.toJson reset) = some reset := by
  cases reset with
  | none => rfl
  | some reset =>
    show (do
      let signal ← Expr.ofJson? reset.signal.toJson
      let init ← Expr.ofJson? reset.init.toJson
      return some ⟨signal, init⟩ : Option (Option Reset)) = _
    simp

namespace Stmt

theorem ofJson?_wire (name ty : Json) :
    Stmt.ofJson? (variant "Wire" (.obj [("name", name), ("ty", ty)])) = (do
      let name ← name.str?
      let ty ← Ty.ofJson? ty
      return .wire name ty) := by
  rw [Stmt.ofJson?]; rfl

theorem ofJson?_reg (name ty clock reset : Json) :
    Stmt.ofJson? (variant "Register"
      (.obj [("name", name), ("ty", ty), ("clock", clock), ("reset", reset)])) = (do
      let name ← name.str?
      let ty ← Ty.ofJson? ty
      let clock ← Expr.ofJson? clock
      let reset ← Reset.ofJson? reset
      return .reg name ty clock reset) := by
  rw [Stmt.ofJson?]; rfl

theorem ofJson?_node (name value : Json) :
    Stmt.ofJson? (variant "Node" (.obj [("name", name), ("value", value)])) = (do
      let name ← name.str?
      let value ← Expr.ofJson? value
      return .node name value) := by
  rw [Stmt.ofJson?]; rfl

theorem ofJson?_connect (loc value : Json) :
    Stmt.ofJson? (variant "Connect" (.obj [("loc", loc), ("expr", value)])) = (do
      let loc ← Expr.ofJson? loc
      let value ← Expr.ofJson? value
      return .connect loc value) := by
  rw [Stmt.ofJson?]; rfl

theorem ofJson?_partialConnect (loc value : Json) :
    Stmt.ofJson? (variant "PartialConnect" (.obj [("loc", loc), ("expr", value)])) = (do
      let loc ← Expr.ofJson? loc
      let value ← Expr.ofJson? value
      return .partialConnect loc value) := by
  rw [Stmt.ofJson?]; rfl

theorem ofJson?_when (cond conseq alt : Json) :
    Stmt.ofJson? (variant "Conditionally"
      (.obj [("pred", cond), ("conseq", conseq), ("alt", alt)])) = (do
      let cond ← Expr.ofJson? cond
      let conseq ← Stmt.ofJson? conseq
      let alt ← Stmt.ofJson? alt
      return .when cond conseq alt) := by
  rw [Stmt.ofJson?]; rfl

theorem ofJson?_block (items : List Json) :
    Stmt.ofJson? (variant "Block" (.arr items)) = (do
      let stmts ← items.mapM Stmt.ofJson?
      return .block stmts) := by
  rw [Stmt.ofJson?, ← Json.list?_arr]; rfl

theorem ofJson?_invalid (loc : Json) :
    Stmt.ofJson? (variant "IsInvalid" (.obj [("expr", loc)])) = (do
      let loc ← Expr.ofJson? loc
      return .invalid loc) := by
  rw [Stmt.ofJson?]; rfl

/-- Statements are written in order. -/
theorem listToJson_eq_map (stmts : List Stmt) : listToJson stmts = stmts.map toJson := by
  induction stmts with
  | nil => rfl
  | cons s stmts ih => rw [listToJson, ih, List.map_cons]

/-- A statement is read back with the statements inside. -/
@[simp] theorem ofJson?_toJson (s : Stmt) : Stmt.ofJson? s.toJson = some s := by
  induction s with
  | wire name ty => simp [toJson, ofJson?_wire]
  | reg name ty clock reset => simp [toJson, ofJson?_reg]
  | node name value => simp [toJson, ofJson?_node]
  | connect loc value => simp [toJson, ofJson?_connect]
  | partialConnect loc value => simp [toJson, ofJson?_partialConnect]
  | when cond conseq alt conseqIh altIh => simp [toJson, ofJson?_when, conseqIh, altIh]
  | block stmts each =>
    simp [toJson, ofJson?_block, listToJson_eq_map, Json.mapM_map_eq_some each]
  | invalid loc => simp [toJson, ofJson?_invalid]
  | skip => rw [Stmt.ofJson?]; rfl

end Stmt

/-! ### Modules and circuits -/

@[simp] theorem Direction.ofJson?_toJson (d : Direction) :
    Direction.ofJson? d.toJson = some d := by
  cases d <;> rfl

/-- A port is read back with its direction. -/
@[simp] theorem Port.ofJson?_toJson (p : Port) : Port.ofJson? p.toJson = some p := by
  show (do
    let direction ← Direction.ofJson? p.direction.toJson
    let ty ← Ty.ofJson? p.ty.toJson
    return ⟨p.name, direction, ty⟩ : Option Port) = _
  simp

/-- A module is read back, with a body or without one. -/
@[simp] theorem Module.ofJson?_toJson (d : Module) : Module.ofJson? d.toJson = some d := by
  have ports := Json.list?_map Port.ofJson?_toJson d.ports
  rcases d with ⟨name, ds, body | body⟩
  · show (do
      let ports ← (Json.arr (ds.map Port.toJson)).list? Port.ofJson?
      return ⟨name, ports, none⟩ : Option Module) = _
    rw [ports]
    rfl
  · show (do
      let ports ← (Json.arr (ds.map Port.toJson)).list? Port.ofJson?
      let body ← Stmt.ofJson? body.toJson
      return ⟨name, ports, some body⟩ : Option Module) = _
    rw [ports, Stmt.ofJson?_toJson]
    rfl

/-- A circuit is read back with its modules in order. -/
@[simp] theorem Circuit.ofJson?_toJson (c : Circuit) : Circuit.ofJson? c.toJson = some c := by
  show (do
    let modules ← (Json.arr (c.modules.map Module.toJson)).list? Module.ofJson?
    return ⟨c.main, modules⟩ : Option Circuit) = _
  rw [Json.list?_map Module.ofJson?_toJson]
  rfl

/-- **The serialized form is faithful.** Every width, bound, type, operator, expression, statement,
module and circuit is read back from its serialized form as it was, and is told apart by it from
every other. -/
theorem serialization_faithful :
    Undoes Width.ofJson? Width.toJson ∧
    Undoes Bound.ofJson? Bound.toJson ∧
    Undoes Ty.ofJson? Ty.toJson ∧
    Undoes Operator.ofJson? Operator.toJson ∧
    Undoes Expr.ofJson? Expr.toJson ∧
    Undoes Stmt.ofJson? Stmt.toJson ∧
    Undoes Module.ofJson? Module.toJson ∧
    Undoes Circuit.ofJson? Circuit.toJson :=
  ⟨.of_back Width.ofJson?_toJson, .of_back Bound.ofJson?_toJson, .of_back Ty.ofJson?_toJson,
    .of_back Operator.ofJson?_toJson, .of_back Expr.ofJson?_toJson, .of_back Stmt.ofJson?_toJson,
    .of_back Module.ofJson?_toJson, .of_back Circuit.ofJson?_toJson⟩

end IntervalHdl
