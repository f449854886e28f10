import Microlisp.Value
/-!
# The heap

The heap is the collector's list of all objects, most recent first, each with its
mark. An address is handed out once: an object the sweep removed is never found
again, so a read through a dangling handle is seen as such.
-/
namespace Microlisp

structure Cell where
  addr : Nat
  marked : Bool
  obj : Obj
deriving DecidableEq

/-- `gc_head`'s list, with the address the next object gets. -/
structure Heap where
  cells : List Cell
  next : Nat
  nodup : (cells.map Cell.addr).Nodup
  fresh : ∀ c ∈ cells, 0 < c.addr ∧ c.addr < next
  next_pos : 0 < next
deriving DecidableEq

namespace Heap

def empty : Heap := ⟨[], 1, by simp, by simp, by simp⟩

def cell? (h : Heap) (a : Nat) : Option Cell := h.cells.find? (fun c => c.addr = a)

/-- The object at `a`, if it is in the list. -/
def get (h : Heap) (a : Nat) : Option Obj := (h.cell? a).map Cell.obj

/-- `link_object` on a fresh object. -/
def alloc (h : Heap) (o : Obj) : Heap where
  cells := ⟨h.next, false, o⟩ :: h.cells
  next := h.next + 1
  nodup := by
    simp only [List.map_cons, List.nodup_cons, List.mem_map, not_exists, not_and]
    refine ⟨fun c hc he => ?_, h.nodup⟩
    have := (h.fresh c hc).2
    omega
  fresh := by
    intro c hc
    rcases List.mem_cons.1 hc with rfl | hc
    · exact ⟨h.next_pos, by simp⟩
    · have := h.fresh c hc
      omega
  next_pos := by omega

/-- Rewrite cells in place; their addresses stay. -/
def mapCells (h : Heap) (f : Cell → Cell) (hf : ∀ c, (f c).addr = c.addr) : Heap where
  cells := h.cells.map f
  next := h.next
  nodup := by
    rw [List.map_map, show Cell.addr ∘ f = Cell.addr from funext hf]
    exact h.nodup
  fresh := by
    intro c hc
    obtain ⟨d, hd, rfl⟩ := List.mem_map.1 hc
    rw [hf]
    exact h.fresh d hd
  next_pos := h.next_pos

/-- Overwrite the object at `a`. -/
def set (h : Heap) (a : Nat) (o : Obj) : Heap :=
  h.mapCells (fun c => if c.addr = a then { c with obj := o } else c) (fun c => by split <;> rfl)

/-- Set the mark of the object at `a`. -/
def mark (h : Heap) (a : Nat) : Heap :=
  h.mapCells (fun c => if c.addr = a then { c with marked := true } else c) (fun c => by split <;> rfl)

/-- `gc_clear_all_marks`. -/
def clearMarks (h : Heap) : Heap := h.mapCells (fun c => { c with marked := false }) (fun _ => rfl)

/-! ## What is in the heap -/

section Facts
variable {h : Heap} {a b : Nat} {k : Cell} {o o' : Obj}

theorem cell?_eq_some : h.cell? a = some k ↔ k ∈ h.cells ∧ k.addr = a := by
  constructor
  · intro hk
    exact ⟨List.mem_of_find?_eq_some hk, by simpa using List.find?_some hk⟩
  · rintro ⟨hk, rfl⟩
    cases hf : h.cell? k.addr with
    | none => simpa using List.find?_eq_none.1 hf k hk
    | some d =>
      have hd : d.addr = k.addr := by simpa using List.find?_some hf
      rw [List.inj_on_of_nodup_map h.nodup (List.mem_of_find?_eq_some hf) hk hd]

theorem get_eq_some : h.get a = some o ↔ ∃ k ∈ h.cells, k.addr = a ∧ k.obj = o := by
  simp only [get, Option.map_eq_some_iff, cell?_eq_some, and_assoc]

/-- An address whose object is known has been handed out. -/
theorem lt_next_of_get (hg : h.get a = some o) : 0 < a ∧ a < h.next := by
  obtain ⟨k, hk, rfl, _⟩ := get_eq_some.1 hg
  exact h.fresh k hk

theorem get_alloc : (h.alloc o).get a = if a = h.next then some o else h.get a := by
  by_cases ha : a = h.next
  · simp [get, cell?, alloc, ha]
  · simp [get, cell?, alloc, ha, Ne.symm ha]

theorem get_mapCells {f : Cell → Cell} (hf : ∀ c, (f c).addr = c.addr) :
    (h.mapCells f hf).get a = (h.cell? a).map (fun c => (f c).obj) := by
  simp only [get, cell?, mapCells, List.find?_map, Option.map_map, Function.comp_def, hf]

theorem get_set : (h.set a o).get b = if b = a then (h.get b).map (fun _ => o) else h.get b := by
  rw [set, get_mapCells]
  cases hk : h.cell? b with
  | none => simp [get, hk]
  | some k =>
    simp only [get, hk, Option.map_some, (cell?_eq_some.1 hk).2]
    split <;> rfl

@[simp] theorem next_alloc : (h.alloc o).next = h.next + 1 := rfl
@[simp] theorem next_set : (h.set a o).next = h.next := rfl
@[simp] theorem next_mark : (h.mark a).next = h.next := rfl
@[simp] theorem next_clearMarks : h.clearMarks.next = h.next := rfl

end Facts
end Heap
end Microlisp
