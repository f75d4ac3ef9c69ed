/-!
# JSON values

JSON trees and the views by which a tree is read: as a variant (a name, alone or as the only key
over its content), as a record (an object, or an array of the fields in order) and as a list. What
a view hands out is a part of the tree, with the proof that it is smaller, so that readers recurse
over parts.
-/

namespace IntervalHdl
set_option autoImplicit false

/-- A JSON value. Numbers written with a fraction or an exponent are kept apart from integers. -/
inductive Json where
  | null
  | bool (value : Bool)
  | int (value : Int)
  | decimal (mantissa : Int) (places : Nat)
  | str (value : String)
  | arr (items : List Json)
  | obj (members : List (String × Json))
deriving Inhabited

namespace Json

/-- The object with one member: a variant with its content. -/
def variant (name : String) (content : Json) : Json := .obj [(name, content)]

/-- A value that is properly smaller than another. -/
def Part (j : Json) : Type := { part : Json // sizeOf part < sizeOf j }

theorem sizeOf_item {items : List Json} {item : Json} (mem : item ∈ items) :
    sizeOf item < sizeOf (Json.arr items) := by
  have := List.sizeOf_lt_of_mem mem
  simp only [arr.sizeOf_spec]
  omega

theorem sizeOf_member {members : List (String × Json)} {member : String × Json}
    (mem : member ∈ members) : sizeOf member.2 < sizeOf (Json.obj members) := by
  have := List.sizeOf_lt_of_mem mem
  obtain ⟨name, value⟩ := member
  simp only [Prod.mk.sizeOf_spec, obj.sizeOf_spec] at this ⊢
  omega

/-- The items of an array. -/
def items? : (j : Json) → Option (List j.Part)
  | .arr items => some (items.attach.map fun item => ⟨item.1, sizeOf_item item.2⟩)
  | _ => none

/-- The value of a member of an object. -/
def member? (name : String) : (j : Json) → Option j.Part
  | .obj members =>
    (members.attach.find? (·.1.1 == name)).map fun member => ⟨member.1.2, sizeOf_member member.2⟩
  | _ => none

/-- The fields of a record: members of an object, or the items of an array of just that length. -/
def record? (names : List String) : (j : Json) → Option (List (Option j.Part))
  | .obj members => some (names.map fun name => (Json.obj members).member? name)
  | .arr items =>
    if items.length = names.length then
      some (items.attach.map fun item => some ⟨item.1, sizeOf_item item.2⟩)
    else none
  | _ => none

/-- The name of a variant, and its content unless the name stands alone. -/
def variant? : (j : Json) → Option (String × Option j.Part)
  | .str name => some (name, none)
  | .obj [(name, content)] =>
    some (name, some ⟨content, @sizeOf_member _ (name, content) (List.mem_singleton.mpr rfl)⟩)
  | _ => none

/-- A variant without content: its name alone, or over `null`. -/
def unit? (j : Json) : Option String :=
  match j.variant? with
  | some (name, none) => some name
  | some (name, some ⟨.null, _⟩) => some name
  | _ => none

/-- The integer that the value is. -/
def int? : Json → Option Int
  | .int v => some v
  | _ => none

/-- The natural number below a limit that the value is. -/
def natBelow? (limit : Nat) (j : Json) : Option Nat :=
  match j with
  | .int v => if 0 ≤ v ∧ v < limit then some v.toNat else none
  | _ => none

/-- The string that the value is. -/
def str? : Json → Option String
  | .str s => some s
  | _ => none

/-- The truth value that the value is. -/
def bool? : Json → Option Bool
  | .bool b => some b
  | _ => none

end Json

end IntervalHdl
