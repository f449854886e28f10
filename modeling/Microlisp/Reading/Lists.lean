import Microlisp.Reading.Memory
/-!
# A list under construction

The reader hangs the cells of a list off a dummy head and overwrites the `cdr` of the last
one. Each element was read before its cell was made, so none leads into that cell, and the
addresses say so.
-/
namespace Microlisp

open Prog

section Set
variable {c : Config} {P : Prop} {s u : State} {l : List Val} {h : Heap} {t : Nat} {z d d' v : Val}

/-! ## Overwriting the `cdr` of a new pair -/

theorem Heap.get_setCdr {a : Nat} {o : Obj} (hne : a ≠ t) (ho : h.get a = some o) :
    (h.set t (.pair z d)).get a = some o := by
  rw [Heap.get_set, if_neg hne, ho]

theorem Heap.get_setCdr_self (ho : h.get t = some (.pair z d')) : (h.set t (.pair z d)).get t = some (.pair z d) := by
  rw [Heap.get_set, if_pos rfl, ho]
  rfl

theorem Heap.valOk_setCdr (ho : h.get t = some (.pair z d')) (hv : h.ValOk v) : (h.set t (.pair z d)).ValOk v := by
  cases v with
  | obj a =>
    obtain ⟨o, ha, hne⟩ := hv
    by_cases hat : a = t
    · subst hat
      exact ⟨_, Heap.get_setCdr_self ho, rfl⟩
    · exact ⟨o, Heap.get_setCdr hat ha, hne⟩
  | _ => exact hv

theorem Heap.frameOk_setCdr (ho : h.get t = some (.pair z d')) (hv : h.FrameOk v) :
    (h.set t (.pair z d)).FrameOk v := by
  obtain ⟨f, a, rfl, ha⟩ := hv
  have hat : a ≠ t := by
    rintro rfl
    rw [ho] at ha
    cases ha
  exact ⟨f, a, rfl, Heap.get_setCdr hat ha⟩

/-- The objects from before the read lead to such objects only. -/
theorem State.Reads.agree_setCdr (hs : s.Ready c) (hu : s.Reads c l u) (ht : s.heap.next ≤ t) :
    u.heap.Agree (fun a => a < s.heap.next) (u.heap.set t (.pair z d)) where
  same := by
    intro a ha o ho
    exact ⟨o, Heap.get_setCdr (by omega) ho, .refl o⟩
  closed := by
    intro a ha o ho b hb
    obtain ⟨o', ho', hg⟩ := hu.good.reached.heap.old a o ha ho
    rw [hg.fixedRefs] at hb
    obtain ⟨o₁, ho₁⟩ := (hs.wf.objs a o' ho').live (Obj.fixedRefs_sub hb)
    exact (Heap.lt_next_of_get ho₁).2

theorem State.Reads.setCdr_wf (hs : s.Ready c) (hu : s.Reads c l u) (ht : s.heap.next ≤ t)
    (ho : u.heap.get t = some (.pair z d')) (hd : u.heap.ValOk d) :
    ({ u with heap := u.heap.set t (.pair z d) } : State).WellFormed c := by
  have hval : ∀ {v}, u.heap.ValOk v → (u.heap.set t (.pair z d)).ValOk v := fun hv => Heap.valOk_setCdr ho hv
  have hframe : ∀ {v}, u.heap.FrameOk v → (u.heap.set t (.pair z d)).FrameOk v := fun hv => Heap.frameOk_setCdr ho hv
  have hwf := hu.good.wf
  refine ⟨?_, ?_, hframe hwf.toplevel, fun v hv => (hwf.protect v hv).imp hval hframe,
    fun v hv => hframe (hwf.pending v hv)⟩
  · intro k hk
    obtain ⟨k', hk', rfl⟩ := List.mem_map.1 hk
    have := hwf.clear k' hk'
    split <;> exact this
  · intro a o hao
    rw [Heap.get_set] at hao
    split at hao
    · rename_i hat
      subst hat
      rw [ho] at hao
      cases hao
      exact ⟨hval (hwf.objs a _ ho).1, hval hd⟩
    · have hok := hwf.objs a o hao
      cases o with
      | pair x y => exact ⟨hval hok.1, hval hok.2⟩
      | string bytes => trivial
      | closure e p b va n =>
        -- a closure is older than the read, and so are its parameters and its body
        have hagree := hu.agree_setCdr (z := z) (d := d) hs ht
        have ha : a < s.heap.next := by
          by_contra ha
          cases hu.data a _ (Nat.le_of_not_lt ha) hao
        obtain ⟨he, hp, ⟨k, hk, hn⟩, hb, m, hm⟩ := hok
        have hin : ∀ v ∈ [e, p, b], v.In fun a => a < s.heap.next := by
          rintro v hv b' rfl
          exact hagree.closed a ha _ hao b' hv
        exact ⟨hframe he, hval hp, ⟨k, hagree.params (hin p (by simp)) hk, hn⟩, hval hb, m,
          hagree.isList (hin b (by simp)) hm⟩
      | prim name fn mn mx => exact hok
      | env p bs k => exact ⟨hok.1.imp id hframe, fun b hb => ⟨(hok.2 b hb).1, hval (hok.2 b hb).2⟩⟩

theorem setCdr_reads {E : Status → State → Prop} (hs : s.Ready c) (hu : s.Reads c l u) (ht : s.heap.next ≤ t)
    (ho : u.heap.get t = some (.pair z d')) (hd : u.heap.ValOk d) :
    wp (readMode P) (setCdr (.obj t) d) u (fun _ w => s.Reads c l w ∧
      w = { u with heap := u.heap.set t (.pair z d) }) E := by
  apply wp_seq (asObj_wp fun _ => ⟨_, t, rfl, ho⟩)
  rintro o _ ⟨rfl, _, ⟨⟩, ho'⟩
  rw [ho] at ho'
  cases ho'
  apply wp_mono (writeObj_wp (fun _ => ⟨t, rfl⟩) fun _ _ => trivial) _ fun _ _ h => h
  rintro _ w ⟨_, ⟨⟩, rfl⟩
  refine ⟨⟨⟨?_, hu.setCdr_wf hs ht ho hd⟩, hu.table, ?_⟩, rfl⟩
  · exact { hu.good.reached with heap := hu.good.reached.heap.set fun hlt => absurd hlt (Nat.not_lt.2 ht) }
  · intro a o ha hao
    rw [Heap.get_set] at hao
    split at hao
    · rename_i hat
      subst hat
      rw [ho] at hao
      cases hao
      rfl
    · exact hu.data a o ha hao

end Set

/-! ## The cells so far -/

/-- From the cell at `a`, one cell for each of the data leads to the cell at the end. All
objects of a datum are at `b` or later, and older than the cell of the datum. -/
inductive Heap.Cells (h : Heap) (names : List Bytes) (b a : Nat) : List Datum → Nat → Prop
  | head : Cells h names b a [] a
  | snoc {elems : List Datum} {d : Datum} {t y : Nat} {x z w : Val} : Cells h names b a elems t →
      h.get t = some (.pair x (.obj y)) →
      t < y → h.get y = some (.pair z w) → h.Shows names (fun k => b ≤ k ∧ k < y) d z →
        Cells h names b a (elems ++ [d]) y

section Cells
variable {h h' : Heap} {names names' : List Bytes} {a b t : Nat} {elems : List Datum} {f : Datum}

theorem Heap.Cells.le (hc : h.Cells names b a elems t) : a ≤ t := by
  induction hc with
  | head => exact Nat.le_refl a
  | snoc _ _ hlt _ _ ih => omega

theorem Heap.Cells.eq_head_iff (hc : h.Cells names b a elems t) : t = a ↔ elems = [] := by
  cases hc with
  | head => simp
  | snoc hc _ hlt _ _ =>
    have := hc.le
    simp
    omega

/-- What is at the end of the cells hangs off the head. -/
theorem Heap.Cells.shows {K : Nat → Prop} {w : Val} (hc : h.Cells names b a elems t) (hK : ∀ k, b ≤ k → k ≤ t → K k)
    (hb : b ≤ a) (ht : ∃ x, h.get t = some (.pair x w)) (hf : h.Shows names K f w) :
    ∃ x y, h.get a = some (.pair x y) ∧ h.Shows names K (.list elems f) y := by
  induction hc generalizing f w with
  | head =>
    obtain ⟨x, hx⟩ := ht
    exact ⟨x, w, hx, hf⟩
  | @snoc elems d t y x z v hc hget hlt hy hd ih =>
    obtain ⟨x', hx'⟩ := ht
    rw [hy] at hx'
    cases hx'
    have hle := hc.le
    have hpair : h.Shows names K (.pair d f) (.obj y) :=
      ⟨y, z, _, rfl, hK y (by omega) (Nat.le_refl y), hy, hd.mono fun k hk => hK k hk.1 (Nat.le_of_lt hk.2), hf⟩
    have := ih (fun k hk hkt => hK k hk (by omega)) ⟨x, hget⟩ hpair
    simpa [Datum.list] using this

/-- Overwriting the last `cdr` leaves the cells. -/
theorem Heap.Cells.setCdr {z d d' : Val} (hc : h.Cells names b a elems t) (ho : h.get t = some (.pair z d')) :
    (h.set t (.pair z d)).Cells names b a elems t := by
  -- older objects than the last cell stay as they are
  have hold : ∀ {elems t'}, h.Cells names b a elems t' → t' < t → (h.set t (.pair z d)).Cells names b a elems t' := by
    intro elems t' hc hlt
    induction hc with
    | head => exact .head
    | snoc hc hget hlt' hy hd ih =>
      apply Heap.Cells.snoc (ih (by omega)) (Heap.get_setCdr (by omega) hget) hlt' (Heap.get_setCdr (by omega) hy)
      exact hd.transfer (fun k o hk hko _ => Heap.get_setCdr (by omega) hko) (List.prefix_refl _) fun k hk _ => hk
  cases hc with
  | head => exact .head
  | snoc hc hget hlt hy hd =>
    rw [ho] at hy
    cases hy
    apply Heap.Cells.snoc (hold hc hlt) (Heap.get_setCdr (by omega) hget) hlt (Heap.get_setCdr_self ho)
    exact hd.transfer (fun k o hk hko _ => Heap.get_setCdr (by omega) hko) (List.prefix_refl _) fun k hk _ => hk

end Cells

section Later
variable {c : Config} {s u : State} {l : List Val} {a b t : Nat} {elems : List Datum}

theorem State.Good.kept_obj (hk : s.Kept c a) {o : Obj} (ho : s.heap.get a = some o) {b : Nat}
    (hb : .obj b ∈ o.fixedRefs) :
    s.Kept c b :=
  State.kept_field (v := .obj a) (fun _ hb => by cases hb; exact hk) ⟨a, rfl, ho⟩ hb b rfl

theorem Heap.Cells.kept (hc : s.heap.Cells s.symtab.entries b a elems t) (ha : s.Kept c a) : s.Kept c t := by
  induction hc with
  | head => exact ha
  | snoc _ hget _ _ _ ih => exact State.Good.kept_obj ih hget (by simp [Obj.fixedRefs])

/-- Cells off a rooted head stay. -/
theorem State.Good.cells (h : s.Good c l u) (hc : s.heap.Cells s.symtab.entries b a elems t) (ha : s.Kept c a) :
    u.heap.Cells u.symtab.entries b a elems t := by
  induction hc with
  | head => exact .head
  | @snoc elems d t y x z w hc hget hlt hy hd ih =>
    have ht := hc.kept ha
    have hyk : s.Kept c y := State.Good.kept_obj ht hget (by simp [Obj.fixedRefs])
    apply Heap.Cells.snoc ih (h.get ht hget rfl) hlt (h.get hyk hy rfl)
    apply h.shows hd
    rintro k rfl
    exact State.Good.kept_obj hyk hy (by simp [Obj.fixedRefs])

end Later
end Microlisp
