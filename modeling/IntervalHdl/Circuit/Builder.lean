import IntervalHdl.Circuit

/-!
# Building circuits step by step

A module under construction: ports and statements in the order they were added. Circuits grow by
whole modules.
-/

namespace IntervalHdl
set_option autoImplicit false

/-- A module under construction. -/
structure ModuleBuilder where
  name : String
  ports : List Port
  stmts : List Stmt

namespace ModuleBuilder

/-- A module without ports and statements. -/
def empty (name : String) : ModuleBuilder := ⟨name, [], []⟩

/-- Adds a port. -/
def port (b : ModuleBuilder) (p : Port) : ModuleBuilder := { b with ports := b.ports ++ [p] }

/-- Adds a statement. -/
def stmt (b : ModuleBuilder) (s : Stmt) : ModuleBuilder := { b with stmts := b.stmts ++ [s] }

/-- Adds an input port. -/
def input (b : ModuleBuilder) (name : String) (ty : Ty) : ModuleBuilder :=
  b.port ⟨name, .input, ty⟩

/-- Adds an output port. -/
def output (b : ModuleBuilder) (name : String) (ty : Ty) : ModuleBuilder :=
  b.port ⟨name, .output, ty⟩

/-- Adds a wire. -/
def wire (b : ModuleBuilder) (name : String) (ty : Ty) : ModuleBuilder := b.stmt (.wire name ty)

/-- Adds a register. -/
def register (b : ModuleBuilder) (name : String) (ty : Ty) (clock : Expr)
    (reset : Option Reset) : ModuleBuilder :=
  b.stmt (.reg name ty clock reset)

/-- Adds a node. -/
def node (b : ModuleBuilder) (name : String) (value : Expr) : ModuleBuilder :=
  b.stmt (.node name value)

/-- Adds a connection. -/
def connect (b : ModuleBuilder) (loc value : Expr) : ModuleBuilder := b.stmt (.connect loc value)

/-- Adds a partial connection. -/
def partialConnect (b : ModuleBuilder) (loc value : Expr) : ModuleBuilder :=
  b.stmt (.partialConnect loc value)

/-- Adds a conditional. -/
def when (b : ModuleBuilder) (cond : Expr) (conseq alt : Stmt) : ModuleBuilder :=
  b.stmt (.when cond conseq alt)

/-- A reference to the first port of that name added so far, typed from its declaration. -/
def portRef? (b : ModuleBuilder) (name : String) : Option Expr :=
  (b.ports.find? (·.name == name)).map fun p => .ref p.name p.ty

/-- The module with its statements as one block. -/
def build (b : ModuleBuilder) : Module := ⟨b.name, b.ports, some (.block b.stmts)⟩

/-- The interface alone, as a module implemented elsewhere. -/
def buildExternal (b : ModuleBuilder) : Module := ⟨b.name, b.ports, none⟩

end ModuleBuilder

/-- A circuit without modules. -/
def Circuit.empty (main : String) : Circuit := ⟨main, []⟩

/-- Adds a module. -/
def Circuit.add (c : Circuit) (d : Module) : Circuit := { c with modules := c.modules ++ [d] }

end IntervalHdl
