/-!
# Graphs unfolded into trees

In a graph whose vertices carry labels and whose edges have names, a vertex unfolds into a
tree: the label at the end of each path of names, where the path leads somewhere. Sharing
and cycles are not seen in it.
-/

/-- A graph over `α`, with labels in `β` and edges named by `δ`. -/
structure Labelled (α δ β : Type) where
  label : α → β
  next : α → δ → Option α

namespace Labelled

variable {α δ β : Type} (g : Labelled α δ β) {v w : α}

/-- The label at the end of a path. -/
def tree : α → List δ → Option β
  | v, [] => some (g.label v)
  | v, d :: path => (g.next v d).bind fun w => tree w path

/-- The two vertices unfold into the same tree. -/
def Alike (v w : α) : Prop := g.tree v = g.tree w

theorem alike_equivalence : Equivalence g.Alike := ⟨fun _ => rfl, Eq.symm, Eq.trans⟩

variable {g}

/-- One level of the trees at a time. -/
theorem alike_iff : g.Alike v w ↔ g.label v = g.label w ∧ ∀ d, Option.Rel g.Alike (g.next v d) (g.next w d) := by
  constructor
  · intro h
    refine ⟨Option.some.inj (congrFun h []), fun d => ?_⟩
    have hd : ∀ path, (g.next v d).bind (fun x => g.tree x path) = (g.next w d).bind (fun x => g.tree x path) :=
      fun path => congrFun h (d :: path)
    cases hv : g.next v d with
    | none =>
      cases hw : g.next w d with
      | none => exact .none
      | some y => simpa [hv, hw, tree] using hd []
    | some x =>
      cases hw : g.next w d with
      | none => simpa [hv, hw, tree] using hd []
      | some y =>
        simp only [hv, hw, Option.bind_some] at hd
        exact .some (funext hd)
  · rintro ⟨hlabel, hnext⟩
    funext path
    cases path with
    | nil => exact congrArg some hlabel
    | cons d path =>
      show (g.next v d).bind _ = (g.next w d).bind _
      have hd := hnext d
      revert hd
      generalize g.next v d = x, g.next w d = y
      rintro (⟨hxy⟩ | ⟨⟩)
      · exact congrFun hxy path
      · rfl

end Labelled
