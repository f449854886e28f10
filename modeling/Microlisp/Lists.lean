import Mathlib.Data.List.Perm.Subperm
import Microlisp.Specs
import Microlisp.Primitives
/-!
# Lists in the heap

The cells of a list that ends are all different, so a walk that may pass as many cells
as addresses have been handed out gets to its end.
-/
namespace Microlisp

open Prog

/-- `n` cells lead from the first value to the second. -/
inductive Heap.Spine (h : Heap) : Val → Nat → Val → Prop
  | nil {v : Val} : Spine h v 0 v
  | cons {v a d w : Val} {n : Nat} : h.Has v (.pair a d) → Spine h d n w → Spine h v (n + 1) w

section Lists
variable {h : Heap} {v w a d : Val} {n m : Nat}

/-- The value is not a pair. -/
def Heap.Ends (h : Heap) (w : Val) : Prop := ∀ a d, ¬ h.Has w (.pair a d)

theorem Heap.ends_of_imm {i : Imm} : h.Ends (.imm i) := by
  rintro a d ⟨_, ⟨⟩, _⟩

theorem Heap.ends_of_sym {i : UInt32} : h.Ends (.sym i) := by
  rintro a d ⟨_, ⟨⟩, _⟩

theorem Heap.Spine.unique (hs : h.Spine v n w) (hs' : h.Spine v m w) (hw : h.Ends w) : n = m := by
  induction hs generalizing m with
  | nil =>
    cases hs' with
    | nil => rfl
    | cons ho _ => exact absurd ho (hw _ _)
  | cons ho _ ih =>
    cases hs' with
    | nil => exact absurd ho (hw _ _)
    | cons ho' hs' =>
      cases ho.unique ho'
      rw [ih hs' hw]

/-- A list that ends has fewer cells than there are addresses. -/
theorem Heap.Spine.lt_next (hs : h.Spine v n w) (hw : h.Ends w) : n < h.next := by
  -- the addresses of the cells, each with a longer way to the end than those after it
  have haddrs : ∃ l : List Nat, l.length = n ∧ l.Nodup ∧
      ∀ a ∈ l, (0 < a ∧ a < h.next) ∧ ∃ m, m ≤ n ∧ h.Spine (.obj a) m w := by
    induction hs with
    | nil => exact ⟨[], rfl, .nil, by simp⟩
    | @cons v a d w n ho hd ih =>
      obtain ⟨l, hlen, hnodup, hl⟩ := ih hw
      obtain ⟨x, rfl, hx⟩ := id ho
      have hx' : h.Spine (.obj x) (n + 1) w := .cons ho hd
      refine ⟨x :: l, by simp [hlen], List.nodup_cons.2 ⟨fun hmem => ?_, hnodup⟩, fun y hy => ?_⟩
      · obtain ⟨-, m, hm, hs⟩ := hl x hmem
        have := hs.unique hx' hw
        omega
      · rcases List.mem_cons.1 hy with rfl | hy
        · exact ⟨Heap.lt_next_of_get hx, n + 1, Nat.le_refl _, hx'⟩
        · obtain ⟨hlt, m, hm, hs⟩ := hl y hy
          exact ⟨hlt, m, by omega, hs⟩
  obtain ⟨l, rfl, hnodup, hl⟩ := haddrs
  have hsub : l ⊆ (List.range h.next).erase 0 := fun a ha =>
    (List.mem_erase_of_ne (Nat.ne_of_gt (hl a ha).1.1)).2 (List.mem_range.2 (hl a ha).1.2)
  have hle := (List.subperm_of_subset hnodup hsub).length_le
  rw [List.length_erase_of_mem (List.mem_range.2 h.next_pos), List.length_range] at hle
  have := h.next_pos
  omega

end Lists

/-! ## Data written down -/

/-- A datum built from immediate values by pairing. -/
inductive Tree where
  | leaf (v : Val)
  | node (a d : Tree)

def Tree.list : List Tree → Tree
  | [] => .leaf mvNil
  | t :: ts => .node t (Tree.list ts)

/-- Allocate the pairs of a datum. -/
def Heap.plant (h : Heap) : Tree → Heap × Val
  | .leaf v => (h, v)
  | .node a d =>
    (((h.plant a).1.plant d).1.alloc (.pair (h.plant a).2 ((h.plant a).1.plant d).2),
      .obj ((h.plant a).1.plant d).1.next)

/-- The leaves are immediate values, the fixnums in range. -/
def Tree.simple : Tree → Bool
  | .leaf (.fix p) => fitsFixnum (mlFixInt p)
  | .leaf (.imm _) => true
  | .leaf (.sym _) => true
  | .leaf _ => false
  | .node a d => a.simple && d.simple

/-- A new interpreter that has been given a datum, with it and the top-level frame
protected. -/
def State.given (t : Tree) : State :=
  { State.created with
    heap := (State.created.heap.plant t).1
    gcProtect := [(State.created.heap.plant t).2, .obj 1]
    gcProtectCap := 32 }

def Tree.value (t : Tree) : Val := (State.created.heap.plant t).2

section Walks
variable {M : Mode Event} {s : State} {v w : Val} {n : Nat} {E : Status → State → Prop}

/-- A walk over a list that ends counts its cells. -/
theorem walkList_total {bound k : Nat} (hs : s.heap.Spine v n w) (hw : s.heap.Ends w) (hwok : M.safe → s.heap.Holds w)
    (hb : n < bound) : wp M (walkList bound v k) s (fun r t => t = s ∧ r = (k + n, w)) E := by
  induction hs generalizing bound k with
  | nil =>
    obtain ⟨bound, rfl⟩ := Nat.exists_eq_add_of_lt hb
    rw [Nat.zero_add]
    refine wp_seq (mlIsPair_wp hwok) ?_
    rintro b t ⟨rfl, hb⟩
    refine wp_ite (fun hb' => ?_) fun _ => wp_pure ⟨rfl, rfl⟩
    obtain ⟨⟨a, d⟩, ho⟩ := hb.1 hb'
    exact absurd ho (hw a d)
  | @cons v a d w n ho hd ih =>
    obtain ⟨bound, rfl⟩ := Nat.exists_eq_add_of_lt hb
    refine wp_seq (mlIsPair_wp fun _ b hb _ => ?_) ?_
    · obtain ⟨x, rfl, hx⟩ := ho
      cases hb
      exact ⟨_, hx⟩
    · rintro b t ⟨rfl, hb⟩
      refine wp_ite (fun _ => ?_) fun hb' => absurd (hb.2 ⟨(a, d), ho⟩) hb'
      refine wp_seq (cdr_wp fun _ => ⟨a, d, ho⟩) ?_
      rintro d' t ⟨rfl, a', ho'⟩
      cases ho.unique ho'
      refine wp_mono (ih hw hwok (by omega)) ?_ (fun _ _ h => h)
      rintro r t ⟨rfl, rfl⟩
      exact ⟨rfl, by simp only [Prod.mk.injEq, and_true]; omega⟩

end Walks
end Microlisp
