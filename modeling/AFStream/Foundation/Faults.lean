/-
# Calls that fail

A call of a program in its surroundings ends in one of three ways: with a result, because the
surroundings gave an answer that is impossible or on which the program gives up, or by a fault of
the program itself, such as a failed assertion about its own state or the use of memory that it
has freed. `Safe Q` says that a call has no fault of its own and that its results have the
property `Q`; `SafeUnless bad Q` allows a fault of its own where `bad` holds. The rules follow the
structure of the program, so that a property of a program is put together from those of its parts.
-/

import Mathlib.Tactic

namespace AFStream.Foundation

universe u v

/-- Why a call has no result. -/
inductive Fault
  | environment
  | program
  deriving DecidableEq, Repr

/-- No fault of the program unless `bad`, and results with the property. -/
def SafeUnless {β : Type u} (bad : Prop) (Q : β → Prop) : Except Fault β → Prop
  | .ok b => Q b
  | .error .environment => True
  | .error .program => bad

/-- No fault of the program, and results with the property. -/
abbrev Safe {β : Type u} (Q : β → Prop) : Except Fault β → Prop := SafeUnless False Q

variable {β γ : Type u} {P Q : β → Prop} {R : γ → Prop} {x : Except Fault β}
  {f : β → Except Fault γ} {bad : Prop}

@[simp]
theorem safe_ok {b : β} : SafeUnless bad Q (.ok b) ↔ Q b := Iff.rfl

@[simp]
theorem safe_pure {b : β} : SafeUnless bad Q (pure b) ↔ Q b := Iff.rfl

@[simp]
theorem safe_environment : SafeUnless bad Q (.error .environment) := trivial

theorem SafeUnless.of_eq_ok {b : β} (hx : SafeUnless bad Q x) (hok : x = .ok b) : Q b := by
  rw [hok] at hx
  exact hx

theorem SafeUnless.ne_program (hx : SafeUnless bad Q x) (hbad : ¬bad) :
    x ≠ .error .program := by
  intro herror
  rw [herror] at hx
  exact hbad hx

theorem SafeUnless.mono (hx : SafeUnless bad P x) (hQ : ∀ b, P b → Q b) :
    SafeUnless bad Q x := by
  cases x with
  | ok b => exact hQ b hx
  | error fault =>
      cases fault with
      | environment => trivial
      | program => exact hx

/-- More is allowed. -/
theorem SafeUnless.imp {bad' : Prop} (hx : SafeUnless bad Q x) (hbad : bad → bad') :
    SafeUnless bad' Q x := by
  cases x with
  | ok b => exact hx
  | error fault =>
      cases fault with
      | environment => trivial
      | program => exact hbad hx

/-- A call that is safe is so whatever is allowed. -/
theorem SafeUnless.weaken (hx : Safe Q x) : SafeUnless bad Q x := hx.imp False.elim

/-- **Sequence.** -/
theorem SafeUnless.bind (hx : SafeUnless bad P x) (hf : ∀ b, P b → SafeUnless bad R (f b)) :
    SafeUnless bad R (x >>= f) := by
  cases x with
  | ok b => exact hf b hx
  | error fault =>
      cases fault with
      | environment => trivial
      | program => exact hx

/-- **Result of a call.** -/
theorem SafeUnless.map {g : β → γ} (hx : SafeUnless bad P x) (hg : ∀ b, P b → R (g b)) :
    SafeUnless bad R (g <$> x) := by
  cases x with
  | ok b => exact hg b hx
  | error fault =>
      cases fault with
      | environment => trivial
      | program => exact hx

/-- **Choice.** -/
theorem SafeUnless.ite {c : Prop} [Decidable c] {y : Except Fault β}
    (hx : c → SafeUnless bad Q x) (hy : ¬c → SafeUnless bad Q y) :
    SafeUnless bad Q (if c then x else y) := by
  split_ifs with hc
  · exact hx hc
  · exact hy hc

/-- **Loop over a list.** -/
theorem SafeUnless.foldlM {α : Type v} {step : β → α → Except Fault β} (Inv : β → Prop)
    {list : List α} {b : β} (hb : Inv b)
    (hstep : ∀ b, ∀ a ∈ list, Inv b → SafeUnless bad Inv (step b a)) :
    SafeUnless bad Inv (list.foldlM step b) := by
  induction list generalizing b with
  | nil => exact hb
  | cons a rest ih =>
      rw [List.foldlM_cons]
      exact (hstep b a List.mem_cons_self hb).bind fun b' hb' =>
        ih hb' fun b a ha => hstep b a (List.mem_cons_of_mem _ ha)

end AFStream.Foundation
