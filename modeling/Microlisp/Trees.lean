import Microlisp.Tidy.Walks
import Microlisp.Safety.Shapes
/-!
# Values as finite trees

Where pairs form no cycle, a value is a finite tree of pairs. Its nesting counts the levels
in the direction of the `car`s: the cells of one list are on one level.
-/
namespace Microlisp

/-- The object behind a value, if there is one. -/
def Heap.obj? (h : Heap) : Val → Option Obj
  | .obj a => h.get a
  | _ => none

theorem Heap.obj?_eq_some {h : Heap} {v : Val} {o : Obj} : h.obj? v = some o ↔ h.Has v o := by
  cases v with
  | obj x => simp [obj?, Has]
  | _ => simp [obj?, Has]

/-! ## Nesting -/

mutual

/-- An atom has one level, a pair one more than its deepest element or tail. -/
def Tree.nest : Tree → Nat
  | .leaf _ => 1
  | .node a d => 1 + max a.nest d.nestRest

/-- The deepest of the elements of a list and, unless it is `()`, its tail. -/
def Tree.nestRest : Tree → Nat
  | .leaf v => if v = mvNil then 0 else 1
  | .node a d => max a.nest d.nestRest

end

/-- How many cells there are on the spine. -/
def Tree.cells : Tree → Nat
  | .leaf _ => 0
  | .node _ d => d.cells + 1

/-- In the heap `h` the value is this tree, and its handles do not dangle. -/
def Heap.Unfolds (h : Heap) : Val → Tree → Prop
  | v, .leaf w => v = w ∧ h.Ends v ∧ h.Holds v
  | v, .node a d => ∃ x y, h.Has v (.pair x y) ∧ h.Unfolds x a ∧ h.Unfolds y d

/-- No pair holds a handle that dangles. -/
def Heap.Whole (h : Heap) : Prop := ∀ v a d, h.Has v (.pair a d) → h.Holds a ∧ h.Holds d

section Trees
variable {h : Heap} {v : Val}

theorem State.WellFormed.whole {c : Config} {s : State} (hs : s.WellFormed c) : s.heap.Whole := by
  rintro v a d ⟨x, rfl, hx⟩
  obtain ⟨ha, hd⟩ := hs.objs x _ hx
  exact ⟨ha.holds, hd.holds⟩

/-- Every value is a finite tree, where pairs form no cycle. -/
theorem Heap.exists_unfolds (hr : Ranked h.PairEdge) (hwhole : h.Whole) (hv : h.Holds v) : ∃ t, h.Unfolds v t := by
  revert hv
  apply Heap.pair_induct hr (P := fun v => h.Holds v → ∃ t, h.Unfolds v t)
  · exact fun v hends hv => ⟨.leaf v, rfl, hends, hv⟩
  · intro v a d ho iha ihd _
    obtain ⟨ta, hta⟩ := iha (hwhole v a d ho).1
    obtain ⟨td, htd⟩ := ihd (hwhole v a d ho).2
    exact ⟨.node ta td, a, d, ho, hta, htd⟩

theorem Heap.Unfolds.unique {t u : Tree} (ht : h.Unfolds v t) (hu : h.Unfolds v u) : t = u := by
  induction t generalizing v u with
  | leaf w =>
    obtain ⟨rfl, hends, -⟩ := ht
    cases u with
    | leaf w' => rw [hu.1]
    | node a d =>
      obtain ⟨x, y, ho, -⟩ := hu
      exact absurd ho (hends x y)
  | node a d iha ihd =>
    obtain ⟨x, y, ho, hx, hy⟩ := ht
    cases u with
    | leaf w => exact absurd ho (hu.2.1 x y)
    | node a' d' =>
      obtain ⟨x', y', ho', hx', hy'⟩ := hu
      cases ho.unique ho'
      rw [iha hx hx', ihd hy hy']

/-- It stays so when objects are added. -/
theorem Heap.Unfolds.mono {h' : Heap} {t : Tree} (hsub : ∀ a o, h.get a = some o → h'.get a = some o)
    (hv : h.Unfolds v t) :
    h'.Unfolds v t := by
  have hhas : ∀ w o, h.Has w o → h'.Has w o := fun w o ⟨a, ha, ho⟩ => ⟨a, ha, hsub a o ho⟩
  induction t generalizing v with
  | leaf w =>
    obtain ⟨rfl, hends, hholds⟩ := hv
    refine ⟨rfl, ?_, fun a ha hpos => (hholds a ha hpos).imp fun o => hsub a o⟩
    rintro x y ⟨a, rfl, ho⟩
    by_cases hpos : a = 0
    · rw [hpos, Heap.get_zero] at ho
      cases ho
    · obtain ⟨o, ho'⟩ := hholds a rfl hpos
      rw [hsub a o ho'] at ho
      cases ho
      exact hends x y ⟨a, rfl, ho'⟩
  | node a d iha ihd =>
    obtain ⟨x, y, ho, hx, hy⟩ := hv
    exact ⟨x, y, hhas _ _ ho, iha hx, ihd hy⟩

/-- A datum that has been written down is the tree it was written from. -/
theorem Heap.unfolds_plant {t : Tree} (ht : t.simple = true) :
    (h.plant t).1.Unfolds (h.plant t).2 t ∧ ∀ a o, h.get a = some o → (h.plant t).1.get a = some o := by
  induction t generalizing h with
  | leaf v =>
    refine ⟨⟨rfl, ?_, ?_⟩, fun _ _ ho => ho⟩
    · rintro a d ⟨x, rfl, -⟩
      cases ht
    · rintro x rfl
      cases ht
  | node a d iha ihd =>
    obtain ⟨ha, hd⟩ := Bool.and_eq_true_iff.1 ht
    obtain ⟨hua, hsuba⟩ := iha (h := h) ha
    obtain ⟨hud, hsubd⟩ := ihd (h := (h.plant a).1) hd
    have hsub : ∀ x o, ((h.plant a).1.plant d).1.get x = some o → (h.plant (.node a d)).1.get x = some o := by
      intro x o ho
      rw [Heap.plant, Heap.get_alloc, if_neg (Nat.ne_of_lt (Heap.lt_next_of_get ho).2), ho]
    refine ⟨⟨_, _, ⟨_, rfl, ?_⟩, (hua.mono hsubd).mono hsub, hud.mono hsub⟩, fun x o ho => hsub x o
      (hsubd x o (hsuba x o ho))⟩
    rw [Heap.plant, Heap.get_alloc, if_pos rfl]

theorem Heap.Tidy.plant {t : Tree} (hh : h.Tidy) (ht : t.simple = true) :
    (h.plant t).1.Tidy ∧ (h.plant t).2.Fit (h.plant t).1.next ∧ h.next ≤ (h.plant t).1.next := by
  induction t generalizing h with
  | leaf v =>
    refine ⟨hh, ?_, Nat.le_refl _⟩
    cases v with
    | obj a => cases ht
    | fix p => exact ht
    | _ => trivial
  | node a d iha ihd =>
    obtain ⟨ha, hd⟩ := Bool.and_eq_true_iff.1 ht
    obtain ⟨hha, hfa, hna⟩ := iha hh ha
    obtain ⟨hhd, hfd, hnd⟩ := ihd hha hd
    refine ⟨hhd.alloc ?_, Nat.lt_succ_self _, Nat.le_succ_of_le (Nat.le_trans hna hnd)⟩
    intro v hv
    rcases List.mem_pair.1 hv with rfl | rfl
    · exact hfa.mono hnd
    · exact hfd

theorem State.given_tidy {t : Tree} (ht : t.simple = true) : (State.given t).heap.Tidy := by
  have hempty : Heap.Tidy Heap.empty := ⟨by rintro a o ⟨⟩, fun _ => 0, by rintro a b ⟨x, y, ⟨⟩, _⟩⟩
  have hframe : ∀ v ∈ (Obj.env mvNil [] 0).refs, v.Fit Heap.empty.next := by
    intro v hv
    cases List.mem_singleton.1 hv
    trivial
  exact ((hempty.alloc hframe).plant ht).1

theorem Heap.Unfolds.spine {t : Tree} (hv : h.Unfolds v t) : ∃ w, h.Spine v t.cells w ∧ h.Ends w := by
  induction t generalizing v with
  | leaf w => exact ⟨v, .nil, hv.2.1⟩
  | node a d _ ihd =>
    obtain ⟨x, y, ho, -, hy⟩ := hv
    obtain ⟨w, hs, hw⟩ := ihd hy
    exact ⟨w, .cons ho hs, hw⟩

theorem Heap.Unfolds.cells_lt {t : Tree} (hv : h.Unfolds v t) : t.cells < h.next := by
  obtain ⟨w, hs, hw⟩ := hv.spine
  exact hs.lt_next hw

theorem Tree.nest_pos (t : Tree) : 0 < t.nest := by
  cases t <;> simp only [Tree.nest] <;> omega

end Trees

/-- `(1 1 1 1)`, and a pair of two such lists. -/
def Tree.ones : Tree := .list (List.replicate 4 (.leaf (mlMakeFix 1)))
def Tree.twice : Tree := .node .ones .ones

theorem Tree.twice_parts : (State.given .twice).heap.Has Tree.twice.value (.pair (.obj 5) (.obj 9)) ∧
    (State.given .twice).heap.Unfolds (.obj 5) .ones ∧ (State.given .twice).heap.Unfolds (.obj 9) .ones := by
  have hpair : (State.given .twice).heap.Has Tree.twice.value (.pair (.obj 5) (.obj 9)) := ⟨10, by decide, by decide⟩
  obtain ⟨x, y, hxy, hx, hy⟩ := (Heap.unfolds_plant (h := State.created.heap) (t := .twice) (by decide +kernel)).1
  cases hpair.unique hxy
  exact ⟨hpair, hx, hy⟩

end Microlisp
