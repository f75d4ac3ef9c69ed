import IntervalHdl.Proofs.Traversal

/-!
# Runs that succeed, and what they count

`x.Yields a t` says that the computation `x` succeeds with `a` and counts `t` on the way. A sequence
yields exactly what its steps yield, their counts added, so that a run is opened by rewriting with
the lemmas below. What each element of a list yields is put together by `Reported.Yields.mapM`.
-/

namespace IntervalHdl
set_option autoImplicit false

namespace Reported

variable {ε α β : Type}

/-- The computation succeeds with `a`, and counts `t`. -/
structure Yields (x : Reported ε α) (a : α) (t : Tally) : Prop where
  outcome : x.outcome = .ok a
  tally : x.report.tally = t

theorem Yields.of_outcome {x : Reported ε α} {a : α} (done : x.outcome = .ok a) :
    x.Yields a x.report.tally := ⟨done, rfl⟩

/-- A result on its own yields itself and counts nothing. -/
theorem yields_pure_iff {a b : α} {t : Tally} :
    (pure a : Reported ε α).Yields b t ↔ a = b ∧ {} = t := by
  constructor
  · rintro ⟨⟨⟩, rfl⟩
    exact ⟨rfl, rfl⟩
  · rintro ⟨rfl, rfl⟩
    exact ⟨rfl, rfl⟩

/-- Steps in sequence yield the result of the last, and the sum of their counts. -/
theorem yields_bind_iff {x : Reported ε α} {f : α → Reported ε β} {b : β} {t : Tally} :
    (x >>= f).Yields b t ↔ ∃ a s u, x.Yields a s ∧ (f a).Yields b u ∧ s + u = t := by
  constructor
  · rintro ⟨done, rfl⟩
    obtain ⟨a, first, next⟩ := bind_outcome_eq_ok_iff.mp done
    refine ⟨a, _, _, .of_outcome first, .of_outcome next, ?_⟩
    rw [bind_of_ok first]
    rfl
  · rintro ⟨a, s, u, first, next, rfl⟩
    refine ⟨bind_outcome_eq_ok_iff.mpr ⟨a, first.outcome, next.outcome⟩, ?_⟩
    rw [bind_of_ok first.outcome, Report.tally_append, first.tally, next.tally]

/-- A result that is handed on yields itself and counts nothing. -/
theorem yields_ofExcept_iff {x : Except ε α} {a : α} {t : Tally} :
    (ofExcept x).Yields a t ↔ x = .ok a ∧ {} = t :=
  ⟨fun ⟨done, tally⟩ => ⟨done, tally⟩, fun ⟨done, tally⟩ => ⟨done, tally⟩⟩

theorem not_yields_fail {e : ε} {a : α} {t : Tally} : ¬ (fail e : Reported ε α).Yields a t := nofun

/-- A count is added to that of the steps behind it. -/
theorem yields_count_bind_iff {s t : Tally} {f : Unit → Reported ε β} {b : β} :
    (count s >>= f).Yields b t ↔ ∃ u, (f ()).Yields b u ∧ s + u = t := by
  rw [yields_bind_iff]
  constructor
  · rintro ⟨_, _, u, ⟨⟨⟩, rfl⟩, next, rfl⟩
    exact ⟨u, next, rfl⟩
  · rintro ⟨u, next, rfl⟩
    exact ⟨(), s, u, ⟨rfl, rfl⟩, next, rfl⟩

/-- A message counts nothing. -/
theorem yields_tell_bind_iff {event : Event} {f : Unit → Reported ε β} {b : β} {t : Tally} :
    (tell event >>= f).Yields b t ↔ (f ()).Yields b t := by
  rw [yields_bind_iff]
  constructor
  · rintro ⟨_, _, u, ⟨⟨⟩, rfl⟩, next, rfl⟩
    rwa [report_tell, Tally.empty_add]
  · rintro next
    exact ⟨(), {}, t, ⟨rfl, rfl⟩, next, Tally.empty_add t⟩

/-- What holds of each step over a list, and is kept when one more element is put in front, holds of
the whole run. -/
theorem Yields.mapM {f : α → Reported ε β} {R : α → β → Tally → Prop}
    {Q : List α → List β → Tally → Prop} (nil : Q [] [] {})
    (cons : ∀ a b s as bs t, R a b s → Q as bs t → Q (a :: as) (b :: bs) (s + t)) {as : List α}
    (each : ∀ a ∈ as, ∀ b s, (f a).Yields b s → R a b s) {bs : List β} {t : Tally}
    (done : (as.mapM f).Yields bs t) : Q as bs t := by
  induction as generalizing bs t with
  | nil =>
    rw [List.mapM_nil, yields_pure_iff] at done
    obtain ⟨rfl, rfl⟩ := done
    exact nil
  | cons a as ih =>
    simp only [List.mapM_cons, yields_bind_iff, yields_pure_iff] at done
    obtain ⟨b, s, _, head, ⟨bs, t, _, tail, ⟨rfl, rfl⟩, rfl⟩, rfl⟩ := done
    rw [Tally.add_empty]
    exact cons a b s as bs t (each a List.mem_cons_self b s head)
      (ih (fun a found => each a (List.mem_cons_of_mem _ found)) tail)

/-- Steps that change and count nothing make a run that changes and counts nothing. -/
theorem yields_mapM_self {f : α → Reported ε α} {as : List α}
    (each : ∀ a ∈ as, (f a).Yields a {}) : (as.mapM f).Yields as {} := by
  induction as with
  | nil => exact yields_pure_iff.mpr ⟨rfl, rfl⟩
  | cons a as ih =>
    simp only [List.mapM_cons, yields_bind_iff, yields_pure_iff]
    have tail := ih fun a found => each a (List.mem_cons_of_mem _ found)
    exact ⟨a, {}, {}, each a List.mem_cons_self, ⟨as, {}, {}, tail, ⟨rfl, rfl⟩, rfl⟩, rfl⟩

end Reported

end IntervalHdl
