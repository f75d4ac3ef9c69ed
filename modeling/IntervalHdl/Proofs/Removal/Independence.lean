import IntervalHdl.Proofs.Traversal
import IntervalHdl.Proofs.Removal.Threading

/-!
# Runs and modules do not influence each other

One instance of a pass may see many circuits, and one circuit has many modules. A run returns, tells
and counts what it would from a fresh instance, whatever went through before, since the threaded
passes follow the reporting ones. Within a circuit a pass goes over the modules in order and stops
at the first that fails, so it does to a circuit what it does to the circuits of its single modules.
-/

namespace IntervalHdl
set_option autoImplicit false

/-! ### Runs -/

/-- The instance after runs on the circuits, one after the other, whichever of them fail. -/
def Instance.through {σ : Type} (s : Instance σ) (pass : Circuit → Threaded σ Circuit)
    (cs : List Circuit) : Instance σ :=
  cs.foldl (fun s c => ((pass c).runOn s).2) s

/-- Whatever circuits went through the instance, the next run returns what it returns from the fresh
account, tells what it tells there, and adds what it counts there. -/
def RunsApart {σ : Type} (pass : Circuit → Threaded σ Circuit) (fresh : σ) (add : σ → σ → σ)
    (s : Instance σ) : Prop :=
  ∀ (before : List Circuit) (c : Circuit),
    let now := s.through pass before
    let alone := (pass c).runOn ⟨fresh, []⟩
    (pass c).runOn now =
      (alone.1, ⟨add now.account alone.2.account, now.told ++ alone.2.told⟩)

/-- A pass that follows a report from open accounts leaves the account open. -/
theorem open_through {σ : Type} {book : Ledger σ} {pass : Circuit → Threaded σ Circuit}
    {report : Circuit → Reported RemovalError Circuit}
    (follows : ∀ c, Follows book (pass c) (report c)) (before : List Circuit) (s : Instance σ)
    (opened : book.Open s.account) : book.Open (s.through pass before).account := by
  induction before generalizing s with
  | nil => exact opened
  | cons c before ih =>
    refine ih ((pass c).runOn s).2 ?_
    rw [follows c s opened]
    exact book.open_enter _ opened

theorem runsApart_of_follows {σ : Type} {book : Ledger σ} {pass : Circuit → Threaded σ Circuit}
    {report : Circuit → Reported RemovalError Circuit} {fresh : σ} {add : σ → σ → σ}
    {s : Instance σ} (follows : ∀ c, Follows book (pass c) (report c))
    (opened : book.Open s.account) (freshOpen : book.Open fresh)
    (adds : ∀ a t, add a (book.enter fresh t) = book.enter a t) :
    RunsApart pass fresh add s := by
  intro before c
  dsimp only
  rw [follows c _ (open_through follows before s opened), follows c ⟨fresh, []⟩ freshOpen]
  simp [Ledger.after, adds]

/-! ### Modules -/

/-- The sum of tallies. -/
def Tally.sum (tallies : List Tally) : Tally := tallies.foldr (· + ·) {}

/-- Tallies of two lots add up. -/
theorem Tally.sum_append (s t : List Tally) : Tally.sum (s ++ t) = Tally.sum s + Tally.sum t := by
  induction s with
  | nil => exact (Tally.empty_add _).symm
  | cons a s ih => exact (congrArg (a + ·) ih).trans (Tally.add_assoc _ _ _).symm

/-- The circuit of one module. -/
def Circuit.single (main : String) (d : Module) : Circuit := ⟨main, [d]⟩

/-- A pass does to a circuit what it does to the circuits of its single modules, in order. -/
structure ActsByModule {ε : Type} (pass : Circuit → Reported ε Circuit) : Prop where
  /-- It succeeds exactly when it succeeds on every module. -/
  succeeds : ∀ c main, (∃ c', (pass c).outcome = .ok c') ↔
    ∀ d ∈ c.modules, ∃ c', (pass (.single main d)).outcome = .ok c'
  /-- It returns the modules that it returns one by one. -/
  returns : ∀ c c' main, (pass c).outcome = .ok c' ↔ c'.main = c.main ∧
    List.Forall₂ (fun d d' => (pass (.single main d)).outcome = .ok (.single main d'))
      c.modules c'.modules
  /-- It counts what it counts on the modules. -/
  counts : ∀ c c' main, (pass c).outcome = .ok c' → (pass c).report.tally =
    Tally.sum (c.modules.map fun d => (pass (.single main d)).report.tally)
  /-- It fails as it does on the first module on which it fails. -/
  fails : ∀ c e main, (pass c).outcome = .error e ↔ ∃ before d after,
    c.modules = before ++ d :: after ∧
    (∀ b ∈ before, ∃ c', (pass (.single main b)).outcome = .ok c') ∧
    (pass (.single main d)).outcome = .error e
  /-- By then it counts what it counts on the modules up to there. -/
  counts_failing : ∀ c e main before d after, c.modules = before ++ d :: after →
    (∀ b ∈ before, ∃ c', (pass (.single main b)).outcome = .ok c') →
    (pass (.single main d)).outcome = .error e → (pass c).report.tally =
      Tally.sum ((before ++ [d]).map fun b => (pass (.single main b)).report.tally)

namespace Reported

variable {ε α β : Type}

theorem report_map (f : α → β) (x : Reported ε α) : (f <$> x).report = x.report := by
  rw [map_eq_pure_bind]
  cases outcome : x.outcome with
  | ok a => rw [bind_of_ok outcome, report_pure, Report.append_empty]
  | error e => rw [bind_of_error outcome]

theorem ofExcept_bind (x : Except ε α) (f : α → Except ε β) :
    ofExcept (x >>= f) = ofExcept x >>= fun a => ofExcept (f a) := by
  cases x with
  | ok a => rw [bind_of_ok (outcome_ofExcept (.ok a)), report_ofExcept, Report.empty_append]; rfl
  | error e => rfl

theorem ofExcept_mapM (f : α → Except ε β) (as : List α) :
    ofExcept (as.mapM f) = as.mapM fun a => ofExcept (f a) := by
  induction as with
  | nil => rfl
  | cons a as ih =>
    simp only [List.mapM_cons, ofExcept_bind, ih]
    rfl

/-- After an element that succeeds, a list goes on as the rest of it. -/
theorem mapM_cons_of_ok {f : α → Reported ε β} {a : α} {b : β} (ok : (f a).outcome = .ok b)
    (as : List α) :
    (List.mapM f (a :: as)).outcome = (b :: ·) <$> (as.mapM f).outcome ∧
      (List.mapM f (a :: as)).report = (f a).report ++ (as.mapM f).report := by
  rw [List.mapM_cons, bind_of_ok ok, bind_pure_comp, outcome_map, report_map]
  exact ⟨rfl, rfl⟩

/-- The elements up to some point, if they succeed, count on their own. -/
theorem tally_mapM_append {f : α → Reported ε β} {before : List α}
    (succeed : ∀ b ∈ before, ∃ c, (f b).outcome = .ok c) (rest : List α) :
    ((before ++ rest).mapM f).report.tally =
      Tally.sum (before.map fun b => (f b).report.tally) + (rest.mapM f).report.tally := by
  induction before with
  | nil => exact (Tally.empty_add _).symm
  | cons a before ih =>
    obtain ⟨⟨b, head⟩, succeed⟩ := List.forall_mem_cons.mp succeed
    rw [List.cons_append, (mapM_cons_of_ok head _).2, Report.tally_append, ih succeed,
      ← Tally.add_assoc]
    rfl

/-- A list fails as its first failing element does. -/
theorem mapM_outcome_eq_error_iff {f : α → Reported ε β} {as : List α} {e : ε} :
    (as.mapM f).outcome = .error e ↔ ∃ before a after, as = before ++ a :: after ∧
      (∀ b ∈ before, ∃ c, (f b).outcome = .ok c) ∧ (f a).outcome = .error e := by
  induction as with
  | nil => simp [pure, Reported.pure]
  | cons a as ih =>
    cases head : (f a).outcome with
    | error e' =>
      rw [List.mapM_cons, bind_of_error head]
      constructor
      · rintro ⟨⟩
        exact ⟨[], a, as, rfl, nofun, head⟩
      · rintro ⟨before, d, after, split, succeed, failed⟩
        rcases before with _ | ⟨b, before⟩ <;> cases split
        · cases head.symm.trans failed
          rfl
        · obtain ⟨c, done⟩ := succeed a List.mem_cons_self
          cases head.symm.trans done
    | ok b =>
      have same : (List.mapM f (a :: as)).outcome = .error e ↔ (as.mapM f).outcome = .error e := by
        rw [(mapM_cons_of_ok head as).1]
        cases (as.mapM f).outcome <;> simp
      rw [same, ih]
      constructor
      · rintro ⟨before, d, after, rfl, succeed, failed⟩
        exact ⟨a :: before, d, after, rfl, List.forall_mem_cons.mpr ⟨⟨b, head⟩, succeed⟩, failed⟩
      · rintro ⟨before, d, after, split, succeed, failed⟩
        rcases before with _ | ⟨_, before⟩ <;> cases split
        · cases head.symm.trans failed
        · exact ⟨before, d, after, rfl, (List.forall_mem_cons.mp succeed).2, failed⟩

end Reported

section Modules

variable {ε : Type} (f : Module → Reported ε Module)

/-- A pass over a circuit of one module is the pass over the module. -/
theorem Circuit.mapModulesM_single (main : String) (d : Module) :
    (Circuit.single main d).mapModulesM f = Circuit.single main <$> f d := by
  show _ = (fun d => Circuit.mk main [d]) <$> f d
  simp [mapModulesM, single]

theorem Circuit.outcome_single (main : String) (d : Module) :
    ((Circuit.single main d).mapModulesM f).outcome = Circuit.single main <$> (f d).outcome := by
  rw [mapModulesM_single, Reported.outcome_map]

theorem Circuit.single_eq_ok_iff {main : String} {d d' : Module} :
    ((Circuit.single main d).mapModulesM f).outcome = .ok (.single main d') ↔
      (f d).outcome = .ok d' := by
  rw [outcome_single, map_eq_ok_iff]
  simp [single]

theorem Circuit.single_succeeds_iff {main : String} {d : Module} :
    (∃ c', ((Circuit.single main d).mapModulesM f).outcome = .ok c') ↔
      ∃ d', (f d).outcome = .ok d' := by
  rw [mapModulesM_single, Reported.map_succeeds_iff]

theorem Circuit.single_eq_error_iff {main : String} {d : Module} {e : ε} :
    ((Circuit.single main d).mapModulesM f).outcome = .error e ↔ (f d).outcome = .error e := by
  rw [outcome_single]
  cases (f d).outcome <;> simp

theorem Circuit.report_single (main : String) (d : Module) :
    ((Circuit.single main d).mapModulesM f).report = (f d).report := by
  rw [mapModulesM_single, Reported.report_map]

/-- A pass over a circuit reports what the pass over its modules does. -/
theorem Circuit.report_mapModulesM (c : Circuit) :
    (c.mapModulesM f).report = (c.modules.mapM f).report := by
  rw [mapModulesM, bind_pure_comp, Reported.report_map]

/-- Whatever goes over the modules of a circuit in order acts on it by module. -/
theorem actsByModule_mapModulesM : ActsByModule fun c => c.mapModulesM f where
  returns c c' main := by
    rw [Circuit.outcome_mapModulesM, Circuit.mapModulesM_eq_ok_iff]
    simp only [Circuit.single_eq_ok_iff]
  succeeds c main := by
    simp only [Circuit.single_succeeds_iff]
    rw [Circuit.mapModulesM, bind_pure_comp, Reported.map_succeeds_iff]
    simp only [Reported.mapM_outcome_eq_ok_iff, exists_forall₂_iff]
  counts c c' main done := by
    rw [Circuit.outcome_mapModulesM, Circuit.mapModulesM_eq_ok_iff] at done
    have succeed := exists_forall₂_iff.mp ⟨_, done.2⟩
    have counted := Reported.tally_mapM_append succeed []
    rw [List.append_nil] at counted
    simp only [Circuit.report_single]
    rw [Circuit.report_mapModulesM, counted]
    exact Tally.add_empty _
  fails c e main := by
    simp only [Circuit.single_succeeds_iff, Circuit.single_eq_error_iff]
    rw [← Reported.mapM_outcome_eq_error_iff, Circuit.mapModulesM, bind_pure_comp,
      Reported.outcome_map]
    cases (c.modules.mapM f).outcome <;> simp
  counts_failing c e main before d after split succeed failed := by
    simp only [Circuit.single_succeeds_iff, Circuit.single_eq_error_iff] at succeed failed
    simp only [Circuit.report_single]
    rw [Circuit.report_mapModulesM, split, Reported.tally_mapM_append succeed, List.mapM_cons,
      Reported.bind_of_error failed, List.map_append, Tally.sum_append]
    rfl

end Modules

/-- Inference on a circuit is inference on its modules in order, with nothing to report. -/
theorem Circuit.ofExcept_infer (c : Circuit) :
    Reported.ofExcept c.infer = c.mapModulesM fun d => Reported.ofExcept d.infer := by
  rw [infer, mapModulesM, mapModulesM, Reported.ofExcept_bind, Reported.ofExcept_mapM]
  rfl

/-- **Runs and modules are independent.** One instance of alignment or of lowering returns on every
circuit what a fresh one does and adds what that counts, whatever went through before and whether
or not the run fails; the accounts that are kept of runs are these. Alignment, lowering and
inference each act on a circuit as on its single modules, up to the first that fails. -/
theorem runs_and_modules_independent :
    (∀ s : Instance Aligner,
      RunsApart Aligner.alignCircuit {} (fun a b => ⟨a.rescales + b.rescales⟩) s) ∧
    (∀ s : Instance Lowerer,
      RunsApart Lowerer.lowerCircuit { warn := s.account.warn }
        (fun a b => { a with stats := a.stats + b.stats }) s) ∧
    (∀ (s : Instance Aligner) (c : Circuit),
      let run := s.account.run c
      (Aligner.alignCircuit c).runOn s =
        (run.2.outcome, ⟨run.1, s.told ++ run.2.report.events⟩)) ∧
    (∀ (s : Instance Lowerer) (c : Circuit),
      let run := s.account.run c
      (Lowerer.lowerCircuit c).runOn s =
        (run.2.outcome, ⟨run.1, s.told ++ run.2.report.events⟩)) ∧
    ActsByModule Circuit.align ∧
    (∀ warn, ActsByModule (Circuit.lower warn)) ∧
    ActsByModule fun c => Reported.ofExcept c.infer := by
  refine ⟨fun s => ?_, fun s => ?_, fun s c => ?_, fun s c => ?_, ?_, fun warn => ?_, ?_⟩
  · exact runsApart_of_follows Aligner.follows_alignCircuit trivial trivial
      fun a t => by simp [Aligner.book]
  · exact runsApart_of_follows Lowerer.follows_lowerCircuit rfl rfl
      fun l t => by simp [Lowerer.book]
  · exact Aligner.follows_alignCircuit c s trivial
  · exact Lowerer.follows_lowerCircuit c s rfl
  · exact actsByModule_mapModulesM Module.align
  · exact actsByModule_mapModulesM (Module.lower warn)
  · rw [funext Circuit.ofExcept_infer]
    exact actsByModule_mapModulesM _

end IntervalHdl
