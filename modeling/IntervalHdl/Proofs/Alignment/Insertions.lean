import IntervalHdl.Proofs.Alignment.Points
import IntervalHdl.Proofs.Removal.Ledger

/-!
# Alignment inserts rescales

What alignment makes of a circuit is the circuit with rescales inserted
(`Circuit.withRescales_iff_of_align`): a `setp` gives way to its operand, operands that meet and the
branches of an interval-typed selection are raised to the greatest of their points, never lowered,
and a connected value is moved to the point of its location. Each rescale moves the point by its one
constant, and their number is the one that is counted. The relation carries that number; it is also
the number of point moves that the second circuit has and the first has not, so there is only one.
-/

namespace IntervalHdl
set_option autoImplicit false

open Reported

/-- The lists are related element by element, and the numbers of the elements add up. -/
inductive Summed {α β : Type} (R : α → β → Nat → Prop) : List α → List β → Nat → Prop where
  | nil : Summed R [] [] 0
  | cons {a : α} {b : β} {as : List α} {bs : List β} {m n : Nat} (head : R a b m)
    (tail : Summed R as bs n) : Summed R (a :: as) (b :: bs) (m + n)

/-- Numbers for each pair of two lists add up to one for the lists. -/
theorem exists_summed {α β : Type} {R : α → β → Nat → Prop} {as : List α} {bs : List β}
    (each : List.Forall₂ (fun a b => ∃ n, R a b n) as bs) : ∃ n, Summed R as bs n := by
  induction each with
  | nil => exact ⟨0, .nil⟩
  | cons head _ ih =>
    obtain ⟨m, head⟩ := head
    obtain ⟨n, tail⟩ := ih
    exact ⟨m + n, .cons head tail⟩

namespace Expr

/-! ## Rescales -/

/-- The value at the point `p`: bare if it is recorded there, else under one `incp` that raises it
from a lower point. The number is that of rescales. -/
inductive Raised (p : BitCount) : Expr → Expr → Nat → Prop where
  | bare {e : Expr} (recorded : e.ty.HasPoint p) : Raised p e e 0
  | incp {e : Expr} {t : Interval} {q : BitCount} {k : Nat} (ty : e.ty = .interval t)
    (point : t.point = .known q) (apart : q.toNat + k = p.toNat) (positive : 0 < k) :
    Raised p e (.prim .incp [e] [(k : Int)] (.interval (t.atPoint p))) 1

/-- The value at the point `p`, which may also be under one `decp` that lowers it from a higher
point. -/
inductive Moved (p : BitCount) : Expr → Expr → Nat → Prop where
  | raised {e e' : Expr} {n : Nat} (raised : Raised p e e' n) : Moved p e e' n
  | decp {e : Expr} {t : Interval} {q : BitCount} {k : Nat} (ty : e.ty = .interval t)
    (point : t.point = .known q) (apart : p.toNat + k = q.toNat) (positive : 0 < k) :
    Moved p e (.prim .decp [e] [(k : Int)] (.interval (t.atPoint p))) 1

/-- The result type of an operator whose operands meet at `p`: a saturation or a wrap may move an
interval there. -/
inductive Repointed (op : Operator) (p : BitCount) : Ty → Ty → Prop where
  | kept (ty : Ty) : Repointed op p ty ty
  | moved (t : Interval) (moves : op = .clip ∨ op = .wrap) :
    Repointed op p (.interval t) (.interval (t.atPoint p))

/-- The second expression is the first with that many rescales inserted. -/
inductive WithRescales : Expr → Expr → Nat → Prop where
  | ref (name : String) (ty : Ty) : WithRescales (.ref name ty) (.ref name ty) 0
  | field {parent parent' : Expr} {n : Nat} (name : String) (ty : Ty)
    (inner : WithRescales parent parent' n) :
    WithRescales (.field parent name ty) (.field parent' name ty) n
  | index {parent parent' : Expr} {n : Nat} (position : UInt64) (ty : Ty)
    (inner : WithRescales parent parent' n) :
    WithRescales (.index parent position ty) (.index parent' position ty) n
  | uint (value : Int) (width : Width) : WithRescales (.uint value width) (.uint value width) 0
  | sint (value : Int) (width : Width) : WithRescales (.sint value width) (.sint value width) 0
  | setp {arg arg' e' : Expr} {p : BitCount} {consts : List Int} {m n : Nat} (ty : Ty)
    (amount : consts.head?.bind BitCount.ofInt? = some p) (inner : WithRescales arg arg' m)
    (moved : Moved p arg' e' n) : WithRescales (.prim .setp [arg] consts ty) e' (m + n)
  | prim {op : Operator} {args args' : List Expr} {n : Nat} (consts : List Int) (ty : Ty)
    (stays : op ≠ .setp) (inner : Summed WithRescales args args' n) :
    WithRescales (.prim op args consts ty) (.prim op args' consts ty) n
  -- The point is that of an operand, so none is raised further than to where they meet.
  | meet {op : Operator} {args args' args'' : List Expr} {p : BitCount} {ty ty' : Ty} {m n : Nat}
    (consts : List Int) (common : op.needsCommonPoint = true)
    (inner : Summed WithRescales args args' m) (highest : ∃ arg ∈ args', arg.ty.HasPoint p)
    (raised : Summed (Raised p) args' args'' n) (result : Repointed op p ty ty') :
    WithRescales (.prim op args consts ty) (.prim op args'' consts ty') (m + n)
  | mux {cond cond' tval tval' fval fval' : Expr} {k m n : Nat} (ty : Ty)
    (condInner : WithRescales cond cond' k) (tvalInner : WithRescales tval tval' m)
    (fvalInner : WithRescales fval fval' n) :
    WithRescales (.mux cond tval fval ty) (.mux cond' tval' fval' ty) (k + (m + n))
  | select {cond cond' tval tval' tval'' fval fval' fval'' : Expr} {p : BitCount}
    {k m n i j : Nat} (t : Interval) (condInner : WithRescales cond cond' k)
    (tvalInner : WithRescales tval tval' m) (fvalInner : WithRescales fval fval' n)
    (highest : tval'.ty.HasPoint p ∨ fval'.ty.HasPoint p) (traised : Raised p tval' tval'' i)
    (fraised : Raised p fval' fval'' j) :
    WithRescales (.mux cond tval fval (.interval t))
      (.mux cond' tval'' fval'' (.interval (t.atPoint p))) (k + (m + n) + (i + j))

/-- A rescale from a point that is not above is a raise. -/
theorem Rescaled.exists_raised {p q : BitCount} {e e' : Expr} (moved : Rescaled p e e')
    (recorded : e.ty.HasPoint q) (below : q ≤ p) : ∃ n, Raised p e e' n := by
  cases moved with
  | same recorded' => exact ⟨0, .bare recorded'⟩
  | @moved _ source ty point apart =>
    rw [ty, Ty.hasPoint_interval_iff, point] at recorded
    obtain rfl : source = q := Width.known.inj recorded
    have differ : source.toNat ≠ p.toNat := fun same => apart (BitCount.ext same)
    rw [BitCount.le_iff] at below
    have lower : source.toNat < p.toNat := lt_of_le_of_ne below differ
    rw [rescaleStep, if_pos (BitCount.lt_iff.mpr lower)]
    refine ⟨1, .incp ty point ?_ ?_⟩
    · rw [BitCount.toNat_sub]
      omega
    · rw [BitCount.toNat_sub]
      omega

/-- A move to a point inserts some number of shifts. -/
theorem Rescaled.exists_moved {p : BitCount} {e e' : Expr} (moved : Rescaled p e e') :
    ∃ n, Moved p e e' n := by
  cases moved with
  | same recorded => exact ⟨0, .raised (.bare recorded)⟩
  | @moved t source ty point apart =>
    rcases Nat.lt_or_ge p.toNat source.toNat with higher | below
    · rw [rescaleStep, if_neg (by rw [BitCount.lt_iff]; omega)]
      refine ⟨1, .decp ty point ?_ ?_⟩
      · rw [BitCount.toNat_sub]
        omega
      · rw [BitCount.toNat_sub]
        omega
    · obtain ⟨n, raised⟩ := (Rescaled.moved ty point apart).exists_raised ⟨t, ty, point⟩ below
      exact ⟨n, .raised raised⟩

theorem repointed_repoint (op : Operator) (p : BitCount) (ty : Ty) :
    Repointed op p ty (op.repoint p ty) := by
  unfold Operator.repoint
  split
  · exact .moved _ (.inr rfl)
  · exact .moved _ (.inl rfl)
  · exact .kept _

/-- Operands that meet are raised to a point that one of them has. -/
theorem raised_of_meet {args args' : List Expr} {points : List BitCount} (nonempty : args ≠ [])
    (recorded : List.Forall₂ (fun e p => e.ty.HasPoint p) args points)
    (moved : List.Forall₂ (Rescaled (commonPoint points)) args args') :
    (∃ arg ∈ args, arg.ty.HasPoint (commonPoint points)) ∧
      ∃ n, Summed (Raised (commonPoint points)) args args' n := by
  constructor
  · have some_point : points ≠ [] := by
      rintro rfl
      exact nonempty (List.forall₂_nil_right_iff.mp recorded)
    exact mem_exists_of_forall₂ recorded.flip (commonPoint_mem some_point)
  · refine exists_summed (forall₂_imp_of_mem (fun arg found arg' moved => ?_) moved)
    obtain ⟨p, among, at_p⟩ := mem_exists_of_forall₂ recorded found
    exact moved.exists_raised at_p (le_commonPoint among)

/-- Rescales are inserted into a node whose subexpressions have theirs. -/
theorem exists_withRescales_of_nodeAligned {e node e' : Expr}
    (rebuilt : Rebuilt (fun a b => ∃ n, WithRescales a b n) e node)
    (aligned : NodeAligned node e') : ∃ n, WithRescales e e' n := by
  cases rebuilt with
  | ref name ty =>
    cases aligned
    exact ⟨0, .ref name ty⟩
  | uint value width =>
    cases aligned
    exact ⟨0, .uint value width⟩
  | sint value width =>
    cases aligned
    exact ⟨0, .sint value width⟩
  | field name ty inner =>
    cases aligned
    obtain ⟨n, inner⟩ := inner
    exact ⟨n, .field name ty inner⟩
  | index position ty inner =>
    cases aligned
    obtain ⟨n, inner⟩ := inner
    exact ⟨n, .index position ty inner⟩
  | prim op consts ty inner =>
    obtain ⟨m, summed⟩ := exists_summed inner
    cases aligned with
    | setp _ amount moved =>
      obtain ⟨_, ⟨m, inside⟩, rfl⟩ := single_of_forall₂ inner.flip
      obtain ⟨n, moved⟩ := moved.exists_moved
      exact ⟨m + n, .setp ty amount inside moved⟩
    | meet _ _ common recorded moved =>
      simp only [meets, Bool.and_eq_true, Bool.not_eq_true', List.isEmpty_eq_false_iff] at common
      obtain ⟨⟨common, nonempty⟩, -⟩ := common
      obtain ⟨highest, n, raised⟩ := raised_of_meet nonempty recorded moved
      exact ⟨m + n, .meet consts common summed highest raised (repointed_repoint op _ ty)⟩
    | keep _ _ stays apart => exact ⟨m, .prim consts ty stays summed⟩
    | other plain => cases plain
  | mux ty condInner tvalInner fvalInner =>
    obtain ⟨k, condInner⟩ := condInner
    obtain ⟨m, tvalInner⟩ := tvalInner
    obtain ⟨n, fvalInner⟩ := fvalInner
    cases aligned with
    | @select _ _ _ _ p q _ t left right tmoved fmoved =>
      obtain ⟨i, traised⟩ := tmoved.exists_raised left (BitCount.le_max_left p q)
      obtain ⟨j, fraised⟩ := fmoved.exists_raised right (BitCount.le_max_right p q)
      refine ⟨_, .select t condInner tvalInner fvalInner ?_ traised fraised⟩
      rcases Nat.le_total p.toNat q.toNat with below | above
      · rw [BitCount.max_eq_right below]
        exact .inr right
      · rw [BitCount.max_eq_left above]
        exact .inl left
    | other _ _ => exact ⟨_, .mux ty condInner tvalInner fvalInner⟩

/-- Alignment inserts rescales into an expression. -/
theorem exists_withRescales_of_align {e e' : Expr} (done : e.align.outcome = .ok e') :
    ∃ n, WithRescales e e' n :=
  align_rel (R := fun e e' => ∃ n, WithRescales e e' n)
    (fun _ _ _ => exists_withRescales_of_nodeAligned) done

end Expr

namespace Stmt

/-- The value that is connected to a location: at the point of an interval-typed one, else bare. -/
inductive Connected (loc value : Expr) : Expr → Nat → Prop where
  | interval {value' : Expr} {p : BitCount} {n : Nat} (target : loc.ty.HasPoint p)
    (moved : Expr.Moved p value value' n) : Connected loc value value' n
  | plain (target : loc.ty.isInterval = false) : Connected loc value value 0

/-- The second statement is the first with that many rescales inserted. -/
inductive WithRescales : Stmt → Stmt → Nat → Prop where
  | wire (name : String) (ty : Ty) : WithRescales (.wire name ty) (.wire name ty) 0
  | reg {clock clock' : Expr} {n : Nat} (name : String) (ty : Ty)
    (inner : clock.WithRescales clock' n) :
    WithRescales (.reg name ty clock none) (.reg name ty clock' none) n
  | regReset {clock clock' : Expr} {reset reset' : Reset} {k m n : Nat} (name : String) (ty : Ty)
    (clockInner : clock.WithRescales clock' k)
    (signalInner : reset.signal.WithRescales reset'.signal m)
    (initInner : reset.init.WithRescales reset'.init n) :
    WithRescales (.reg name ty clock (some reset)) (.reg name ty clock' (some reset'))
      (k + (m + n))
  | node {value value' : Expr} {n : Nat} (name : String) (inner : value.WithRescales value' n) :
    WithRescales (.node name value) (.node name value') n
  | connect {loc loc' value value' value'' : Expr} {k m n : Nat}
    (locInner : loc.WithRescales loc' k) (valueInner : value.WithRescales value' m)
    (connected : Connected loc' value' value'' n) :
    WithRescales (.connect loc value) (.connect loc' value'') (k + (m + n))
  | partialConnect {loc loc' value value' value'' : Expr} {k m n : Nat}
    (locInner : loc.WithRescales loc' k) (valueInner : value.WithRescales value' m)
    (connected : Connected loc' value' value'' n) :
    WithRescales (.partialConnect loc value) (.partialConnect loc' value'') (k + (m + n))
  | when {cond cond' : Expr} {conseq conseq' alt alt' : Stmt} {k m n : Nat}
    (condInner : cond.WithRescales cond' k) (conseqInner : WithRescales conseq conseq' m)
    (altInner : WithRescales alt alt' n) :
    WithRescales (.when cond conseq alt) (.when cond' conseq' alt') (m + n + k)
  | block {stmts stmts' : List Stmt} {n : Nat} (inner : Summed WithRescales stmts stmts' n) :
    WithRescales (.block stmts) (.block stmts') n
  | invalid {loc loc' : Expr} {n : Nat} (inner : loc.WithRescales loc' n) :
    WithRescales (.invalid loc) (.invalid loc') n
  | skip : WithRescales .skip .skip 0

/-- Fitting a value to its location inserts some number of shifts. -/
theorem exists_connected_of_fitted {loc value value' : Expr} (fitted : loc.Fitted value value') :
    ∃ n, Connected loc value value' n := by
  cases fitted with
  | interval target moved =>
    obtain ⟨n, moved⟩ := moved.exists_moved
    exact ⟨n, .interval target moved⟩
  | plain target => exact ⟨0, .plain target⟩

/-- Alignment inserts rescales into a statement. -/
theorem exists_withRescales_of_align {s s' : Stmt} (done : s.align.outcome = .ok s') :
    ∃ n, WithRescales s s' n := by
  induction s generalizing s' with
  | wire name ty =>
    cases stmtAligned_of_align done
    exact ⟨0, .wire name ty⟩
  | reg name ty clock reset =>
    cases stmtAligned_of_align done with
    | reg _ _ clockDone =>
      obtain ⟨n, inner⟩ := Expr.exists_withRescales_of_align clockDone
      exact ⟨n, .reg name ty inner⟩
    | regReset _ _ clockDone signalDone initDone =>
      obtain ⟨k, clockInner⟩ := Expr.exists_withRescales_of_align clockDone
      obtain ⟨m, signalInner⟩ := Expr.exists_withRescales_of_align signalDone
      obtain ⟨n, initInner⟩ := Expr.exists_withRescales_of_align initDone
      exact ⟨_, .regReset name ty clockInner signalInner initInner⟩
  | node name value =>
    cases stmtAligned_of_align done with
    | node _ valueDone =>
      obtain ⟨n, inner⟩ := Expr.exists_withRescales_of_align valueDone
      exact ⟨n, .node name inner⟩
  | connect loc value =>
    cases stmtAligned_of_align done with
    | connect locDone valueDone fitted =>
      obtain ⟨k, locInner⟩ := Expr.exists_withRescales_of_align locDone
      obtain ⟨m, valueInner⟩ := Expr.exists_withRescales_of_align valueDone
      obtain ⟨n, connected⟩ := exists_connected_of_fitted fitted
      exact ⟨_, .connect locInner valueInner connected⟩
  | partialConnect loc value =>
    cases stmtAligned_of_align done with
    | partialConnect locDone valueDone fitted =>
      obtain ⟨k, locInner⟩ := Expr.exists_withRescales_of_align locDone
      obtain ⟨m, valueInner⟩ := Expr.exists_withRescales_of_align valueDone
      obtain ⟨n, connected⟩ := exists_connected_of_fitted fitted
      exact ⟨_, .partialConnect locInner valueInner connected⟩
  | when cond conseq alt conseqIh altIh =>
    cases stmtAligned_of_align done with
    | when condDone conseqDone altDone =>
      obtain ⟨k, condInner⟩ := Expr.exists_withRescales_of_align condDone
      obtain ⟨m, conseqInner⟩ := conseqIh conseqDone
      obtain ⟨n, altInner⟩ := altIh altDone
      exact ⟨_, .when condInner conseqInner altInner⟩
  | block stmts ih =>
    cases stmtAligned_of_align done with
    | block each =>
      obtain ⟨n, inner⟩ :=
        exists_summed (forall₂_imp_of_mem (fun s found _ step => ih s found step) each)
      exact ⟨n, .block inner⟩
  | invalid loc =>
    cases stmtAligned_of_align done with
    | invalid locDone =>
      obtain ⟨n, inner⟩ := Expr.exists_withRescales_of_align locDone
      exact ⟨n, .invalid inner⟩
  | skip =>
    cases stmtAligned_of_align done
    exact ⟨0, .skip⟩

end Stmt

/-- The second module is the first with that many rescales inserted in its body. -/
inductive Module.WithRescales : Module → Module → Nat → Prop where
  | external (name : String) (ports : List Port) :
    WithRescales ⟨name, ports, none⟩ ⟨name, ports, none⟩ 0
  | body {body body' : Stmt} {n : Nat} (name : String) (ports : List Port)
    (inner : body.WithRescales body' n) :
    WithRescales ⟨name, ports, some body⟩ ⟨name, ports, some body'⟩ n

/-- The second circuit is the first with that many rescales inserted. -/
structure Circuit.WithRescales (c c' : Circuit) (n : Nat) : Prop where
  main : c'.main = c.main
  modules : Summed Module.WithRescales c.modules c'.modules n

/-- Alignment inserts rescales into a circuit. -/
theorem Circuit.exists_withRescales_of_align {c c' : Circuit} (done : c.align.outcome = .ok c') :
    ∃ n, c.WithRescales c' n := by
  obtain ⟨main, each⟩ := align_eq_ok_iff.mp done
  refine (exists_summed (each.imp ?_)).imp fun n modules => ⟨main, modules⟩
  rintro ⟨name, ports, body?⟩ ⟨name', ports', body'?⟩ ⟨rfl, rfl, body⟩
  cases body with
  | none => exact ⟨0, .external name' ports'⟩
  | some bodyDone =>
    obtain ⟨n, inner⟩ := Stmt.exists_withRescales_of_align bodyDone
    exact ⟨n, .body name' ports' inner⟩

/-! ## The number of rescales -/

/-- The point moves of a list are those from before and the numbers of its elements. -/
theorem Summed.moves_eq {α : Type} {R : α → α → Nat → Prop} {ns : α → List Expr} {as bs : List α}
    {n : Nat} (each : ∀ a ∈ as, ∀ b n, R a b n → Expr.moves (ns b) = n + Expr.moves (ns a))
    (summed : Summed R as bs n) :
    Expr.moves (bs.flatMap ns) = n + Expr.moves (as.flatMap ns) := by
  induction summed with
  | nil => rfl
  | cons head _ ih =>
    have here := each _ List.mem_cons_self _ _ head
    have inside := ih fun a found => each a (List.mem_cons_of_mem _ found)
    simp only [List.flatMap_cons, Expr.moves_append]
    omega

namespace Expr

/-- Raising inserts just the moves that it counts. -/
theorem Raised.moves_eq {p : BitCount} {e e' : Expr} {n : Nat} (raised : Raised p e e' n) :
    moves e'.nodes = n + moves e.nodes := by
  cases raised with
  | bare => exact (Nat.zero_add _).symm
  | incp => exact moves_shifted (.inl rfl) _ _ _

theorem moves_eq_of_raised {p : BitCount} {es es' : List Expr} {n : Nat}
    (raised : Summed (Raised p) es es' n) :
    moves (es'.flatMap nodes) = n + moves (es.flatMap nodes) :=
  raised.moves_eq fun _ _ _ _ => Raised.moves_eq

/-- Moving inserts just the moves that it counts. -/
theorem Moved.moves_eq {p : BitCount} {e e' : Expr} {n : Nat} (moved : Moved p e e' n) :
    moves e'.nodes = n + moves e.nodes := by
  cases moved with
  | raised raised => exact raised.moves_eq
  | decp => exact moves_shifted (.inr rfl) _ _ _

/-- What is inserted below a node that keeps its operator is what is inserted altogether. -/
theorem moves_nodes_eq {e node : Expr} {n : Nat}
    (inside : moves (node.children.flatMap nodes) = n + moves (e.children.flatMap nodes))
    (same : node.operator? = e.operator?) : moves node.nodes = n + moves e.nodes := by
  rw [nodes_eq e, nodes_eq node, moves_append, moves_append, inside, moves_singleton same,
    Nat.add_assoc]

/-- The number of an expression is that of the point moves that it has over. -/
theorem WithRescales.moves_eq {e e' : Expr} {n : Nat} (inserted : WithRescales e e' n) :
    moves e'.nodes = n + moves e.nodes := by
  induction e generalizing e' n with
  | ref | uint | sint =>
    cases inserted
    exact (Nat.zero_add _).symm
  | field parent name ty ih =>
    cases inserted with
    | field _ _ inner => exact moves_nodes_eq (by simpa [children] using ih inner) rfl
  | index parent position ty ih =>
    cases inserted with
    | index _ _ inner => exact moves_nodes_eq (by simpa [children] using ih inner) rfl
  | prim op args consts ty ih =>
    cases inserted with
    | @setp arg _ _ _ _ _ _ _ amount inner moved =>
      have gone := moves_setp arg consts ty
      have below := ih arg List.mem_cons_self inner
      have above := moved.moves_eq
      omega
    | prim _ _ stays inner =>
      exact moves_nodes_eq (inner.moves_eq fun arg found _ _ => ih arg found) rfl
    | meet _ common inner highest raised result =>
      refine moves_nodes_eq ?_ rfl
      have below := inner.moves_eq fun arg found _ _ => ih arg found
      have above := moves_eq_of_raised raised
      simp only [children]
      omega
  | mux cond tval fval ty condIh tvalIh fvalIh =>
    cases inserted with
    | mux _ condInner tvalInner fvalInner =>
      refine moves_nodes_eq ?_ rfl
      have cond_eq := condIh condInner
      have tval_eq := tvalIh tvalInner
      have fval_eq := fvalIh fvalInner
      simp only [children, List.flatMap_cons, List.flatMap_nil, moves_append]
      omega
    | select t condInner tvalInner fvalInner highest traised fraised =>
      refine moves_nodes_eq ?_ rfl
      have cond_eq := condIh condInner
      have tval_eq := tvalIh tvalInner
      have fval_eq := fvalIh fvalInner
      have tval_above := traised.moves_eq
      have fval_above := fraised.moves_eq
      simp only [children, List.flatMap_cons, List.flatMap_nil, moves_append]
      omega

end Expr

namespace Stmt

/-- The point moves of a location and the value that is connected to it. -/
theorem Connected.moves_eq {loc loc' value value' value'' : Expr} {k m n : Nat}
    (connected : Connected loc' value' value'' n) (locInner : loc.WithRescales loc' k)
    (valueInner : value.WithRescales value' m) :
    Expr.moves (loc'.nodes ++ value''.nodes) =
      k + (m + n) + Expr.moves (loc.nodes ++ value.nodes) := by
  have moved : Expr.moves value''.nodes = n + Expr.moves value'.nodes := by
    cases connected with
    | interval target moved => exact moved.moves_eq
    | plain => exact (Nat.zero_add _).symm
  have loc_eq := locInner.moves_eq
  have value_eq := valueInner.moves_eq
  rw [Expr.moves_append, Expr.moves_append]
  omega

/-- The number of a statement is that of the point moves that it has over. -/
theorem WithRescales.moves_eq {s s' : Stmt} {n : Nat} (inserted : WithRescales s s' n) :
    Expr.moves s'.nodes = n + Expr.moves s.nodes := by
  rw [nodes_eq, nodes_eq]
  induction s generalizing s' n with
  | wire | skip =>
    cases inserted
    exact (Nat.zero_add _).symm
  | reg name ty clock reset =>
    cases inserted with
    | reg _ _ inner => simpa [exprs, stmts] using inner.moves_eq
    | regReset _ _ clockInner signalInner initInner =>
      have clock_eq := clockInner.moves_eq
      have signal_eq := signalInner.moves_eq
      have init_eq := initInner.moves_eq
      simp only [stmts, exprs, List.flatMap_cons, List.flatMap_nil, List.append_nil, List.nil_append,
        Expr.moves_append]
      omega
  | node name value =>
    cases inserted with
    | node _ inner => simpa [exprs, stmts] using inner.moves_eq
  | connect loc value =>
    cases inserted with
    | connect locInner valueInner connected =>
      simpa [exprs, stmts] using connected.moves_eq locInner valueInner
  | partialConnect loc value =>
    cases inserted with
    | partialConnect locInner valueInner connected =>
      simpa [exprs, stmts] using connected.moves_eq locInner valueInner
  | when cond conseq alt conseqIh altIh =>
    cases inserted with
    | when condInner conseqInner altInner =>
      have cond_eq := condInner.moves_eq
      have conseq_eq := conseqIh conseqInner
      have alt_eq := altIh altInner
      rw [← nodes_eq, ← nodes_eq] at conseq_eq alt_eq
      simp only [stmts, exprs, List.flatMap_cons, List.flatMap_nil, List.append_nil,
        Expr.moves_append]
      omega
  | block stmts ih =>
    cases inserted with
    | block inner =>
      simp only [← nodes_eq] at ih
      simpa [exprs, Stmt.stmts] using inner.moves_eq fun s found _ _ => ih s found
  | invalid loc =>
    cases inserted with
    | invalid inner => simpa [exprs, stmts] using inner.moves_eq

end Stmt

/-- The insertions into a module are the moves that it has more than before. -/
theorem Module.WithRescales.moves_eq {m m' : Module} {n : Nat} (inserted : WithRescales m m' n) :
    Expr.moves m'.nodes = n + Expr.moves m.nodes := by
  cases inserted with
  | external => exact (Nat.zero_add _).symm
  | body _ _ inner => simpa [nodes] using inner.moves_eq

/-- The insertions into a circuit are the moves that it has more than before. -/
theorem Circuit.WithRescales.moves_eq {c c' : Circuit} {n : Nat} (inserted : WithRescales c c' n) :
    Expr.moves c'.nodes = n + Expr.moves c.nodes :=
  inserted.modules.moves_eq fun _ _ _ _ => Module.WithRescales.moves_eq

namespace Circuit

/-- What alignment makes of a circuit is the circuit with rescales inserted, in as many places as a
fresh aligner counts. -/
theorem withRescales_iff_of_align {c c' : Circuit} (done : c.align.outcome = .ok c') (n : Nat) :
    c.WithRescales c' n ↔ n = (Aligner.run {} c).1.rescales := by
  have counted : (Aligner.run {} c).1.rescales = c.align.report.tally.rescales :=
    Nat.zero_add _
  have moves := (inserts_of_align (Yields.of_outcome done)).moves_eq
  -- Whatever relates the circuits has their difference in point moves for its number, and so has
  -- the run.
  have unique {k : Nat} (inserted : c.WithRescales c' k) : k = c.align.report.tally.rescales := by
    have := inserted.moves_eq
    omega
  rw [counted]
  constructor
  · exact unique
  · rintro rfl
    obtain ⟨k, inserted⟩ := exists_withRescales_of_align done
    exact unique inserted ▸ inserted

/-- Aligning the unaligned circuit takes four insertions. -/
theorem withRescales_iff_of_align_unaligned :
    ∃ c', unaligned.align.outcome = .ok c' ∧ (Aligner.run {} unaligned).1.rescales = 4 ∧
      ∀ n, unaligned.WithRescales c' n ↔ n = 4 :=
  ⟨_, rfl, rfl, withRescales_iff_of_align (c := unaligned) rfl⟩

end Circuit

end IntervalHdl
