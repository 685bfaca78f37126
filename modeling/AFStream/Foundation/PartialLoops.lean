/-
# Loops that can fail

A loop over a list is a fold or a map of a partial function, undefined as soon as one of
its iterations is. The rules of this module relate such a loop to what its iterations
do: a fold to a simulation, a map to the pairs of inputs and outputs.
-/

import Mathlib.Tactic

namespace AFStream.Foundation

universe u v w

/-! ## Folds -/

/-- **Simulation rule for partial folds.** If each iteration of a loop does what a list of
elementary steps does, then so does the whole loop, including where it is undefined. -/
theorem rel_foldlM_flatMap {State : Type u} {Spec : Type v} {Input : Type w} {Elementary : Type*}
    {R : State → Spec → Prop} {step : State → Input → Option State}
    {elementary : Spec → Elementary → Option Spec} {expand : Input → List Elementary}
    {inputs : List Input}
    (hstep : ∀ input ∈ inputs, ∀ state spec, R state spec →
      Option.Rel R (step state input) ((expand input).foldlM elementary spec))
    {state : State} {spec : Spec} (hstart : R state spec) :
    Option.Rel R (inputs.foldlM step state) ((inputs.flatMap expand).foldlM elementary spec) := by
  induction inputs generalizing state spec with
  | nil => exact .some hstart
  | cons input rest ih =>
      rw [List.foldlM_cons, List.flatMap_cons, List.foldlM_append]
      have hfirst := hstep input List.mem_cons_self state spec hstart
      generalize step state input = next at hfirst
      generalize (expand input).foldlM elementary spec = next' at hfirst
      cases hfirst with
      | none => exact .none
      | some hnext =>
          exact ih (fun other hother => hstep other (List.mem_cons_of_mem input hother)) hnext

theorem foldlM_singleton {State : Type u} {Input : Type v} (step : State → Input → Option State)
    (state : State) (input : Input) : [input].foldlM step state = step state input := by
  rw [List.foldlM_cons]
  exact Option.bind_fun_some _

/-- What every iteration keeps holds after the loop. -/
theorem foldlM_preserves {State : Type u} {Input : Type v} {step : State → Input → Option State}
    {P : State → Prop} (hstep : ∀ state input next, P state → step state input = some next → P next)
    {inputs : List Input} {state final : State} (hstart : P state)
    (hfold : inputs.foldlM step state = some final) : P final := by
  induction inputs generalizing state with
  | nil =>
      obtain rfl := Option.some.inj hfold
      exact hstart
  | cons input rest ih =>
      rw [List.foldlM_cons] at hfold
      obtain ⟨next, hnext, hrest⟩ := Option.bind_eq_some_iff.mp hfold
      exact ih (hstep state input next hstart hnext) hrest

/-! ## Maps -/

/-- A partial function on all elements of a list. -/
theorem mapM_eq_some_iff {α : Type u} {β : Type v} {f : α → Option β} {inputs : List α}
    {outputs : List β} :
    inputs.mapM f = some outputs ↔ List.Forall₂ (fun a b => f a = some b) inputs outputs := by
  induction inputs generalizing outputs with
  | nil =>
      rw [List.mapM_nil, List.forall₂_nil_left_iff]
      exact ⟨fun h => (Option.some.inj h).symm, fun h => congrArg some h.symm⟩
  | cons a rest ih =>
      rw [List.mapM_cons]
      simp only [Option.bind_eq_bind, Option.bind_eq_some_iff, Option.pure_def, Option.some.injEq]
      constructor
      · rintro ⟨b, hb, tail, htail, rfl⟩
        exact .cons hb (ih.mp htail)
      · intro h
        cases h with
        | cons hb htail => exact ⟨_, hb, _, ih.mpr htail, rfl⟩

/-- The same for a function that can throw. -/
theorem mapM_eq_ok_iff {E A B : Type} {f : A → Except E B} {inputs : List A} {outputs : List B} :
    inputs.mapM f = .ok outputs ↔ List.Forall₂ (fun a b => f a = .ok b) inputs outputs := by
  induction inputs generalizing outputs with
  | nil =>
      rw [List.mapM_nil, List.forall₂_nil_left_iff]
      constructor
      · intro h
        exact (Except.ok.inj h).symm
      · intro h
        rw [h]
        rfl
  | cons a rest ih =>
      rw [List.mapM_cons, List.forall₂_cons_left_iff]
      cases ha : f a with
      | error e =>
          constructor
          · intro h
            cases h
          · rintro ⟨b, tail, hb, -⟩
            cases hb
      | ok b =>
          cases hrest : rest.mapM f with
          | error e =>
              constructor
              · intro h
                cases h
              · rintro ⟨b', tail, -, htail, -⟩
                rw [← ih, hrest] at htail
                cases htail
          | ok tail =>
              constructor
              · intro h
                exact ⟨b, tail, rfl, ih.mp hrest, (Except.ok.inj h).symm⟩
              · rintro ⟨b', tail', hb, htail, rfl⟩
                obtain rfl := Except.ok.inj hb
                rw [← ih, hrest] at htail
                obtain rfl := Except.ok.inj htail
                rfl

/-- An error that no element raises is not raised by the map. -/
theorem mapM_ne_error {E A B : Type} {f : A → Except E B} {inputs : List A} {e : E}
    (h : ∀ a ∈ inputs, f a ≠ .error e) : inputs.mapM f ≠ .error e := by
  induction inputs with
  | nil =>
      intro herror
      cases herror
  | cons a rest ih =>
      rw [List.forall_mem_cons] at h
      have hrest := ih h.2
      rw [List.mapM_cons]
      cases ha : f a with
      | error e' =>
          intro herror
          have hsame : e' = e := Except.error.inj herror
          exact h.1 (hsame ▸ ha)
      | ok b =>
          cases htail : rest.mapM f with
          | error e' =>
              intro herror
              have hsame : e' = e := Except.error.inj herror
              exact hrest (hsame ▸ htail)
          | ok tail =>
              intro herror
              cases herror

/-! ## Inputs and outputs -/

section Forall₂

variable {α : Type u} {β : Type v} {R : α → β → Prop} {first : List α} {second : List β}

theorem exists_forall₂_iff :
    (∃ second, List.Forall₂ R first second) ↔ ∀ a ∈ first, ∃ b, R a b := by
  induction first with
  | nil => exact ⟨fun _ a ha => absurd ha List.not_mem_nil, fun _ => ⟨[], .nil⟩⟩
  | cons a rest ih =>
      rw [List.forall_mem_cons, ← ih]
      constructor
      · rintro ⟨second, h⟩
        cases h with
        | cons hb hrest => exact ⟨⟨_, hb⟩, _, hrest⟩
      · rintro ⟨⟨b, hb⟩, second, hrest⟩
        exact ⟨b :: second, .cons hb hrest⟩

/-- Every output has an input. -/
theorem exists_left_of_forall₂ (h : List.Forall₂ R first second) :
    ∀ b ∈ second, ∃ a ∈ first, R a b := by
  induction h with
  | nil => exact fun _ hmem => absurd hmem List.not_mem_nil
  | @cons a b first second hb _ ih =>
      rw [List.forall_mem_cons]
      refine ⟨⟨a, List.mem_cons_self, hb⟩, fun b' hb' => ?_⟩
      obtain ⟨a', ha', hrelated⟩ := ih b' hb'
      exact ⟨a', List.mem_cons_of_mem a ha', hrelated⟩

/-- Every input has an output. -/
theorem exists_right_of_forall₂ (h : List.Forall₂ R first second) :
    ∀ a ∈ first, ∃ b ∈ second, R a b :=
  exists_left_of_forall₂ (List.Forall₂.flip h)

theorem forall_mem_right_of_forall₂ {P : β → Prop}
    (h : List.Forall₂ (fun _ b => P b) first second) : ∀ b ∈ second, P b := by
  intro b hb
  obtain ⟨-, -, hP⟩ := exists_left_of_forall₂ h b hb
  exact hP

end Forall₂

end AFStream.Foundation
