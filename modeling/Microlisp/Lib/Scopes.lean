import Mathlib.Data.Finmap
/-!
# Scopes

Frames of variables, each inside another one: a frame has a parent and a finite map from
names to values. A name means what the innermost frame that binds it says. Values may be
handles of frames themselves.
-/

/-- A frame, for handles in `α` and names in `ν`. -/
structure Scope (α ν : Type) where
  parent : α
  vars : Finmap fun _ : ν => α

/-- The frames by their handles. A chain ends at a handle that is not one of a frame. -/
abbrev Scopes (α ν : Type) := α → Option (Scope α ν)

namespace Scopes

variable {α ν : Type} [DecidableEq ν]

/-- `b` is the innermost frame from `a` on that binds the name, to `x`. -/
inductive Binds (S : Scopes α ν) (n : ν) : α → α → α → Prop
  | here {a x : α} {f : Scope α ν} : S a = some f → f.vars.lookup n = some x → Binds S n a a x
  | up {a b x : α} {f : Scope α ν} : S a = some f → n ∉ f.vars → Binds S n f.parent b x → Binds S n a b x

/-- No frame from `a` on binds the name. -/
inductive Unbound (S : Scopes α ν) (n : ν) : α → Prop
  | stop {a : α} : S a = none → Unbound S n a
  | up {a : α} {f : Scope α ν} : S a = some f → n ∉ f.vars → Unbound S n f.parent → Unbound S n a

/-- The name bound to `x` in the frame at `a`, anew or in place of what it was bound to. -/
def assign [DecidableEq α] (S : Scopes α ν) (a : α) (n : ν) (x : α) : Scopes α ν :=
  fun b => if b = a then (S b).map fun f => { f with vars := f.vars.insert n x } else S b

/-- A new empty frame at `a`. -/
def extend [DecidableEq α] (S : Scopes α ν) (a parent : α) : Scopes α ν :=
  fun b => if b = a then some ⟨parent, ∅⟩ else S b

/-- The roots lead to the handle, through parents and values. -/
inductive Reaches (S : Scopes α ν) (roots : List α) : α → Prop
  | root {a : α} : a ∈ roots → Reaches S roots a
  | parent {a : α} {f : Scope α ν} : Reaches S roots a → S a = some f → Reaches S roots f.parent
  | value {a x : α} {f : Scope α ν} {n : ν} : Reaches S roots a → S a = some f → f.vars.lookup n = some x →
      Reaches S roots x

/-- `T` is `S` less some frames that the roots do not lead to. -/
structure Forgets (roots : List α) (S T : Scopes α ν) : Prop where
  kept : ∀ a, S.Reaches roots a → T a = S a
  only : ∀ a, T a = S a ∨ T a = none

variable {S : Scopes α ν} {n : ν} {a b x : α}

/-- A name means one thing only. -/
theorem Binds.unique {b' x' : α} (h : S.Binds n a b x) (h' : S.Binds n a b' x') : b = b' ∧ x = x' := by
  induction h with
  | here hf hx =>
    cases h' with
    | here hf' hx' =>
      cases hf.symm.trans hf'
      exact ⟨rfl, Option.some.inj (hx.symm.trans hx')⟩
    | up hf' hn _ =>
      cases hf.symm.trans hf'
      exact absurd (Finmap.mem_of_lookup_eq_some hx) hn
  | up hf hn _ ih =>
    cases h' with
    | here hf' hx' =>
      cases hf.symm.trans hf'
      exact absurd (Finmap.mem_of_lookup_eq_some hx') hn
    | up hf' _ h' =>
      cases hf.symm.trans hf'
      exact ih h'

theorem Binds.not_unbound (h : S.Binds n a b x) : ¬ S.Unbound n a := by
  induction h with
  | here hf hx =>
    intro h'
    cases h' with
    | stop hf' => cases hf.symm.trans hf'
    | up hf' hn _ =>
      cases hf.symm.trans hf'
      exact hn (Finmap.mem_of_lookup_eq_some hx)
  | up hf _ _ ih =>
    intro h'
    cases h' with
    | stop hf' => cases hf.symm.trans hf'
    | up hf' _ h' =>
      cases hf.symm.trans hf'
      exact ih h'

theorem Forgets.refl {roots : List α} : Forgets roots S S := ⟨fun _ _ => rfl, fun _ => .inl rfl⟩

end Scopes
