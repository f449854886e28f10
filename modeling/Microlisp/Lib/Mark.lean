import Mathlib.Logic.Relation
import Mathlib.Data.Set.Insert
/-!
# Marking a graph through a worklist

Nodes are marked when they are queued. Taking a node off the worklist puts its
successors on the list of nodes still to be visited. `Tri` says what holds between
any two moves; when nothing is left to do, the marked nodes are the reachable ones.
-/
namespace Mark

variable {α : Type} {E : α → α → Prop} {roots : List α}

/-- Some root leads to `a`. -/
def Reach (E : α → α → Prop) (roots : List α) (a : α) : Prop := ∃ r ∈ roots, Relation.ReflTransGen E r a

theorem Reach.root {a : α} (h : a ∈ roots) : Reach E roots a := ⟨a, h, .refl⟩

theorem Reach.step {a b : α} (h : Reach E roots a) (hb : E a b) : Reach E roots b := by
  obtain ⟨r, hr, ha⟩ := h
  exact ⟨r, hr, ha.tail hb⟩

/-- A set that holds the roots and is closed under successors holds what is reachable. -/
theorem Reach.mem_of_closed {S : Set α} (hroots : ∀ a ∈ roots, a ∈ S) (hclosed : ∀ a b, a ∈ S → E a b → b ∈ S)
    {a : α} (h : Reach E roots a) : a ∈ S := by
  obtain ⟨r, hr, ha⟩ := h
  induction ha with
  | refl => exact hroots r hr
  | tail _ hb ih => exact hclosed _ _ ih hb

/-- What is reached is still reached when its edges are kept. -/
theorem Reach.mono {E' : α → α → Prop} {roots' : List α} (hroots : ∀ a ∈ roots, a ∈ roots')
    (hE : ∀ a b, Reach E roots a → E a b → E' a b) {a : α} (h : Reach E roots a) : Reach E' roots' a := by
  obtain ⟨r, hr, ha⟩ := h
  refine ⟨r, hroots r hr, ?_⟩
  induction ha with
  | refl => exact .refl
  | tail ha hb ih => exact ih.tail (hE _ _ ⟨r, hr, ha⟩ hb)

/-- Between two moves, with the nodes `M` marked, `work` queued and `todo` next to be
visited. -/
structure Tri (E : α → α → Prop) (roots : List α) (M : Set α) (work todo : List α) : Prop where
  sound : ∀ a ∈ M, Reach E roots a
  todo_sound : ∀ a ∈ todo, Reach E roots a
  queued : ∀ a ∈ work, a ∈ M
  nodup : work.Nodup
  rooted : ∀ a ∈ roots, a ∈ M ∨ a ∈ todo
  expanded : ∀ a ∈ M, a ∉ work → ∀ b, E a b → b ∈ M ∨ b ∈ todo

namespace Tri

variable {M : Set α} {work todo : List α} {a : α}

theorem start : Tri E roots ∅ [] roots where
  sound := by simp
  todo_sound := fun _ h => .root h
  queued := by simp
  nodup := List.nodup_nil
  rooted := fun _ h => .inr h
  expanded := by simp

/-- The next node is marked already. -/
theorem visit_old (h : Tri E roots M work (a :: todo)) (ha : a ∈ M) : Tri E roots M work todo where
  sound := h.sound
  todo_sound := fun b hb => h.todo_sound b (by simp [hb])
  queued := h.queued
  nodup := h.nodup
  rooted := by
    intro b hb
    rcases h.rooted b hb with hm | hm
    · exact .inl hm
    · rcases List.mem_cons.1 hm with rfl | hm
      · exact .inl ha
      · exact .inr hm
  expanded := by
    intro b hb hw d hd
    rcases h.expanded b hb hw d hd with hm | hm
    · exact .inl hm
    · rcases List.mem_cons.1 hm with rfl | hm
      · exact .inl ha
      · exact .inr hm

/-- The next node is marked and queued. -/
theorem visit_new (h : Tri E roots M work (a :: todo)) (ha : a ∉ M) :
    Tri E roots (insert a M) (a :: work) todo where
  sound := by
    rintro b (rfl | hb)
    · exact h.todo_sound b (by simp)
    · exact h.sound b hb
  todo_sound := fun b hb => h.todo_sound b (by simp [hb])
  queued := by
    intro b hb
    rcases List.mem_cons.1 hb with rfl | hb
    · exact .inl rfl
    · exact .inr (h.queued b hb)
  nodup := List.nodup_cons.2 ⟨fun hw => ha (h.queued a hw), h.nodup⟩
  rooted := by
    intro b hb
    rcases h.rooted b hb with hm | hm
    · exact .inl (.inr hm)
    · exact (List.mem_cons.1 hm).imp .inl id
  expanded := by
    rintro b (rfl | hb) hw d hd
    · exact absurd List.mem_cons_self hw
    · rcases h.expanded b hb (fun hb => hw (by simp [hb])) d hd with hm | hm
      · exact .inl (.inr hm)
      · exact (List.mem_cons.1 hm).imp .inl id

/-- A node leaves the worklist; its successors are next. -/
theorem pop {succ : List α} (h : Tri E roots M (a :: work) []) (hs : ∀ b, b ∈ succ ↔ E a b) :
    Tri E roots M work succ where
  sound := h.sound
  todo_sound := fun b hb => (h.sound a (h.queued a (by simp))).step ((hs b).1 hb)
  queued := fun b hb => h.queued b (by simp [hb])
  nodup := (List.nodup_cons.1 h.nodup).2
  rooted := fun b hb => .inl ((h.rooted b hb).resolve_right (by simp))
  expanded := by
    intro b hb hw d hd
    by_cases hba : b = a
    · exact .inr ((hs d).2 (hba ▸ hd))
    · exact .inl ((h.expanded b hb (by simp [hba, hw]) d hd).resolve_right (by simp))

/-- With nothing left to do, the marked nodes are the reachable ones. -/
theorem done (h : Tri E roots M [] []) : a ∈ M ↔ Reach E roots a :=
  ⟨h.sound a, Reach.mem_of_closed (fun b hb => (h.rooted b hb).resolve_right (by simp))
    (fun b d hb hd => (h.expanded b hb (by simp) d hd).resolve_right (by simp))⟩

end Tri
end Mark
