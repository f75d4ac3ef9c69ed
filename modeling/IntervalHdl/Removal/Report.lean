import IntervalHdl.Removal.Event

/-!
# Computations that report

A computation that may fail and reports on the way. The report of a sequence is the reports of its
steps put together, up to and including the step that fails; steps never read what was reported
before them, so the outcome of a computation is that of its steps in `Except` (`outcome_bind`).
-/

namespace IntervalHdl
set_option autoImplicit false

/-- Counts and events of a computation. -/
structure Report where
  tally : Tally := {}
  events : List Event := []

namespace Report

instance : Append Report := ⟨fun a b => ⟨a.tally + b.tally, a.events ++ b.events⟩⟩

@[simp] theorem tally_append (a b : Report) : (a ++ b).tally = a.tally + b.tally := rfl

@[simp] theorem events_append (a b : Report) : (a ++ b).events = a.events ++ b.events := rfl

@[ext] theorem ext {a b : Report} (tally : a.tally = b.tally) (events : a.events = b.events) :
    a = b := by
  cases a; cases b; simp_all

@[simp] theorem append_empty (a : Report) : a ++ ({} : Report) = a := by
  apply ext <;> simp

@[simp] theorem empty_append (a : Report) : ({} : Report) ++ a = a := by
  apply ext <;> simp

/-- Reports in sequence may be grouped either way. -/
theorem append_assoc (a b c : Report) : a ++ b ++ c = a ++ (b ++ c) := by
  apply ext <;> simp [Tally.add_assoc]

end Report

/-- The outcome of a computation, with what it reported. -/
structure Reported (ε α : Type) where
  report : Report
  outcome : Except ε α

namespace Reported

variable {ε α β γ : Type}

/-- Succeeds and reports nothing. -/
protected def pure (a : α) : Reported ε α := ⟨{}, .ok a⟩

/-- Goes on after a success; the reports are put together. -/
protected def bind (x : Reported ε α) (f : α → Reported ε β) : Reported ε β :=
  match x.outcome with
  | .ok a =>
    let y := f a
    ⟨x.report ++ y.report, y.outcome⟩
  | .error e => ⟨x.report, .error e⟩

instance : Monad (Reported ε) where
  pure := Reported.pure
  bind := Reported.bind

/-- Fails and reports nothing. -/
def fail (e : ε) : Reported ε α := ⟨{}, .error e⟩

/-- An outcome without a report. -/
def ofExcept (x : Except ε α) : Reported ε α := ⟨{}, x⟩

/-- Adds to the counts. -/
def count (tally : Tally) : Reported ε Unit := ⟨{ tally }, .ok ()⟩

/-- Tells an event. -/
def tell (event : Event) : Reported ε Unit := ⟨{ events := [event] }, .ok ()⟩

/-- Puts another cause in place of the cause of a failure. -/
def mapError {δ : Type} (f : ε → δ) (x : Reported ε α) : Reported δ α :=
  ⟨x.report, x.outcome.mapError f⟩

@[ext] theorem ext {x y : Reported ε α} (report : x.report = y.report)
    (outcome : x.outcome = y.outcome) : x = y := by
  cases x; cases y; simp_all

@[simp] theorem outcome_pure (a : α) : (pure a : Reported ε α).outcome = .ok a := rfl

@[simp] theorem report_pure (a : α) : (pure a : Reported ε α).report = {} := rfl

@[simp] theorem outcome_fail (e : ε) : (fail e : Reported ε α).outcome = .error e := rfl

@[simp] theorem report_fail (e : ε) : (fail e : Reported ε α).report = {} := rfl

@[simp] theorem outcome_ofExcept (x : Except ε α) : (ofExcept x).outcome = x := rfl

@[simp] theorem report_ofExcept (x : Except ε α) : (ofExcept x).report = {} := rfl

@[simp] theorem outcome_count (t : Tally) : (count t : Reported ε Unit).outcome = .ok () := rfl

@[simp] theorem report_count (t : Tally) :
    (count t : Reported ε Unit).report = { tally := t } := rfl

@[simp] theorem outcome_tell (e : Event) : (tell e : Reported ε Unit).outcome = .ok () := rfl

@[simp] theorem report_tell (e : Event) :
    (tell e : Reported ε Unit).report = { events := [e] } := rfl

/-- Reports have no influence on outcomes. -/
theorem outcome_bind (x : Reported ε α) (f : α → Reported ε β) :
    (x >>= f).outcome = x.outcome >>= fun a => (f a).outcome := by
  show (Reported.bind x f).outcome = _
  unfold Reported.bind
  cases x.outcome <;> rfl

/-- What is done to a result leaves the report alone. -/
theorem outcome_map (f : α → β) (x : Reported ε α) : (f <$> x).outcome = f <$> x.outcome := by
  show (Reported.bind x fun a => Reported.pure (f a)).outcome = _
  unfold Reported.bind
  cases x.outcome <;> rfl

/-- After a success the report of the next step is put behind. -/
theorem bind_of_ok {x : Reported ε α} {a : α} (ok : x.outcome = .ok a) (f : α → Reported ε β) :
    x >>= f = ⟨x.report ++ (f a).report, (f a).outcome⟩ := by
  show Reported.bind x f = _
  unfold Reported.bind
  rw [ok]

/-- A failure ends the report. -/
theorem bind_of_error {x : Reported ε α} {e : ε} (failed : x.outcome = .error e)
    (f : α → Reported ε β) : x >>= f = ⟨x.report, .error e⟩ := by
  show Reported.bind x f = _
  unfold Reported.bind
  rw [failed]

instance : LawfulMonad (Reported ε) := LawfulMonad.mk' (Reported ε)
  (by
    intro α x
    show Reported.bind x (fun a => Reported.pure a) = x
    unfold Reported.bind Reported.pure
    split <;> rename_i h <;> apply ext <;> simp [h])
  (by
    intro α β a f
    show Reported.bind (Reported.pure a) f = f a
    unfold Reported.bind Reported.pure
    apply ext <;> simp)
  (by
    intro α β γ x f g
    show Reported.bind (Reported.bind x f) g = Reported.bind x fun a => Reported.bind (f a) g
    unfold Reported.bind
    cases x.outcome with
    | error e => rfl
    | ok a =>
      dsimp only
      cases (f a).outcome with
      | error e => rfl
      | ok b => apply ext <;> simp [Report.append_assoc])

/-- Over a list, too, outcomes are those of the steps. -/
theorem outcome_mapM (f : α → Reported ε β) (as : List α) :
    (as.mapM f).outcome = as.mapM fun a => (f a).outcome := by
  induction as with
  | nil => rfl
  | cons a as ih => simp only [List.mapM_cons, outcome_bind, outcome_pure, ih]; rfl

end Reported

end IntervalHdl
