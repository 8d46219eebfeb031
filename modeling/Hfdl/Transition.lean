import Mathlib.Logic.Function.Basic

/-! Labelled machines given by a partial step function. A label carries every
choice the environment makes, so a run is a list of labels and can be replayed
by evaluation. -/
namespace Hfdl.Transition
variable {S E : Type _}

/-- The state after a list of labels; no state when some label is not enabled. -/
def run (next : S → E → Option S) : S → List E → Option S
  | s, [] => some s
  | s, e :: es => (next s e).bind fun t => run next t es

/-- Every step of the run satisfies a condition on the state before it. -/
def Meets (next : S → E → Option S) (cond : S → E → Prop) : S → List E → Prop
  | _, [] => True
  | s, e :: es => cond s e ∧
      match next s e with
      | none => True
      | some t => Meets next cond t es

section
variable {next : S → E → Option S} {cond : S → E → Prop}

instance Meets.decidable [∀ s e, Decidable (cond s e)] :
    (s : S) → (es : List E) → Decidable (Meets next cond s es)
  | _, [] => isTrue trivial
  | s, e :: es =>
    have : Decidable (match next s e with
        | none => True
        | some t => Meets next cond t es) :=
      match next s e with
      | none => isTrue trivial
      | some t => Meets.decidable t es
    inferInstanceAs (Decidable (_ ∧ _))

@[simp] theorem run_nil (s : S) : run next s [] = some s := rfl

theorem run_cons_some : run next s (e :: es) = some u ↔ ∃ t, next s e = some t ∧ run next t es = some u := by
  simp only [run, Option.bind_eq_some_iff]

theorem Meets.head (meets : Meets next cond s (e :: es)) : cond s e := meets.1

theorem Meets.tail (meets : Meets next cond s (e :: es)) (stepped : next s e = some t) :
    Meets next cond t es := by
  have rest := meets.2
  rwa [stepped] at rest

theorem Meets.cons (here : cond s e) (stepped : next s e = some t) (rest : Meets next cond t es) :
    Meets next cond s (e :: es) := by
  refine ⟨here, ?_⟩
  rwa [stepped]

/-- Induction over a run whose steps all meet a condition. -/
theorem invariant_meeting {I : S → Prop}
    (preserves : ∀ {s e t}, I s → cond s e → next s e = some t → I t)
    (initial : I s) (ran : run next s es = some t) (meets : Meets next cond s es) : I t := by
  induction es generalizing s with
  | nil =>
    cases ran
    exact initial
  | cons e es ih =>
    obtain ⟨middle, stepped, rest⟩ := run_cons_some.mp ran
    exact ih (preserves initial meets.head stepped) rest (meets.tail stepped)

theorem meets_true (s : S) (es : List E) : Meets next (fun _ _ => True) s es := by
  induction es generalizing s with
  | nil => trivial
  | cons e es ih =>
    refine ⟨trivial, ?_⟩
    cases next s e with
    | none => trivial
    | some t => exact ih t

theorem invariant {I : S → Prop} (preserves : ∀ {s e t}, I s → next s e = some t → I t)
    (initial : I s) (ran : run next s es = some t) : I t :=
  invariant_meeting (fun held _ => preserves held) initial ran (meets_true s es)

end

theorem update_eq_some {K A : Type _} [DecidableEq K] {m : K → Option A} {k k' : K} {v : Option A} {a : A} :
    Function.update m k v k' = some a ↔ k' = k ∧ v = some a ∨ k' ≠ k ∧ m k' = some a := by
  by_cases same : k' = k
  · subst same
    simp
  · simp [same]

end Hfdl.Transition
