import Microlisp.Specs
import Microlisp.Lib.Mark
/-!
# A collection frees exactly the garbage

The worklist of `gc.c` is a run of the marking of `Lib.Mark` over the heap's
pointers. `mlGcCollect_spec` gives what a collection leaves, whether it completes
or gives up; the rest of the development uses a collection through it alone.
-/
namespace Microlisp

open Prog

/-! ## Pointers -/

/-- The address behind a handle. -/
def Val.ptr : Val → Option Nat
  | .obj 0 => none
  | .obj (a + 1) => some (a + 1)
  | _ => none

/-- What an object holds: a pair its two halves; a closure its environment, its parameters and its
body; a frame its parent, its names and their values. Strings and primitives hold nothing. -/
inductive Obj.Field : Obj → Val → Prop
  | car {a d : Val} : Field (.pair a d) a
  | cdr {a d : Val} : Field (.pair a d) d
  | env {e params body : Val} {variadic : Bool} {n : UInt32} : Field (.closure e params body variadic n) e
  | params {e params body : Val} {variadic : Bool} {n : UInt32} : Field (.closure e params body variadic n) params
  | body {e params body : Val} {variadic : Bool} {n : UInt32} : Field (.closure e params body variadic n) body
  | parent {p : Val} {bindings : List (Val × Val)} {k : Nat} : Field (.env p bindings k) p
  | name {p name value : Val} {bindings : List (Val × Val)} {k : Nat} (h : (name, value) ∈ bindings) :
      Field (.env p bindings k) name
  | value {p name value : Val} {bindings : List (Val × Val)} {k : Nat} (h : (name, value) ∈ bindings) :
      Field (.env p bindings k) value

/-- A field of the object at `a` is a handle on `b`. -/
def Heap.Edge (h : Heap) (a b : Nat) : Prop := ∃ o v, h.get a = some o ∧ o.Field v ∧ v.ptr = some b

/-- The addresses that the collector visits from an object. -/
def Obj.ptrs (o : Obj) : List Nat := o.refs.filterMap Val.ptr

def State.roots (c : Config) (s : State) : List Nat := (c.toplevelEnv :: s.gcProtect).filterMap Val.ptr

/-- The top-level environment or the protect stack leads to the object at `a`. -/
def State.Reachable (c : Config) (s : State) (a : Nat) : Prop := Mark.Reach s.heap.Edge (s.roots c) a

/-- No reachable handle dangles. -/
def State.Sound (c : Config) (s : State) : Prop := ∀ a, s.Reachable c a → (s.heap.get a).isSome

theorem Val.ptr_eq_some {v : Val} {a : Nat} : v.ptr = some a ↔ v = .obj a ∧ 0 < a := by
  cases v with
  | obj b =>
    cases b with
    | zero => simp [Val.ptr]; omega
    | succ b => simp only [Val.ptr, Option.some.injEq, Val.obj.injEq]; omega
  | _ => simp [Val.ptr]

/-- The collector visits each field of an object, and nothing else. -/
theorem Obj.field_iff {o : Obj} {v : Val} : o.Field v ↔ v ∈ o.refs := by
  constructor
  · intro h
    cases h with
    | car => exact List.mem_cons_self
    | cdr => exact List.mem_cons_of_mem _ List.mem_cons_self
    | env => exact List.mem_cons_self
    | params => exact List.mem_cons_of_mem _ List.mem_cons_self
    | body => exact List.mem_cons_of_mem _ (List.mem_cons_of_mem _ List.mem_cons_self)
    | parent => exact List.mem_cons_self
    | name h => exact List.mem_cons_of_mem _ (List.mem_flatMap.2 ⟨_, h, by simp⟩)
    | value h => exact List.mem_cons_of_mem _ (List.mem_flatMap.2 ⟨_, h, by simp⟩)
  · intro h
    cases o with
    | pair a d =>
      rcases List.mem_cons.1 h with rfl | h
      · exact .car
      · obtain rfl := List.mem_singleton.1 h
        exact .cdr
    | string bytes => cases h
    | prim name fn lo hi => cases h
    | closure e params body variadic n =>
      rcases List.mem_cons.1 h with rfl | h
      · exact .env
      · rcases List.mem_cons.1 h with rfl | h
        · exact .params
        · obtain rfl := List.mem_singleton.1 h
          exact .body
    | env p bindings k =>
      rcases List.mem_cons.1 h with rfl | h
      · exact .parent
      · obtain ⟨b, hb, hv⟩ := List.mem_flatMap.1 h
        rcases List.mem_cons.1 hv with rfl | hv
        · exact .value hb
        · obtain rfl := List.mem_singleton.1 hv
          exact .name hb

/-- An edge is a step of the collector. -/
theorem Heap.edge_iff {h : Heap} {a b : Nat} : h.Edge a b ↔ ∃ o, h.get a = some o ∧ b ∈ o.ptrs := by
  constructor
  · rintro ⟨o, v, ho, hv, hb⟩
    exact ⟨o, ho, List.mem_filterMap.2 ⟨v, Obj.field_iff.1 hv, hb⟩⟩
  · rintro ⟨o, ho, hb⟩
    obtain ⟨v, hv, hb⟩ := List.mem_filterMap.1 hb
    exact ⟨o, v, ho, Obj.field_iff.2 hv, hb⟩

/-- The edges of one object are what the collector visits from it. -/
theorem Heap.mem_ptrs {h : Heap} {a b : Nat} {o : Obj} (ho : h.get a = some o) : b ∈ o.ptrs ↔ h.Edge a b := by
  rw [Heap.edge_iff, ho]
  constructor
  · exact fun hb => ⟨o, rfl, hb⟩
  · rintro ⟨_, ⟨⟩, hb⟩
    exact hb

/-- What a reachable object holds is reachable. -/
theorem State.Reachable.field {c : Config} {s : State} {a b : Nat} {o : Obj} (ha : s.Reachable c a)
    (ho : s.heap.get a = some o) (hv : .obj b ∈ o.refs) (hb : b ≠ 0) : s.Reachable c b :=
  ha.step ⟨o, .obj b, ho, Obj.field_iff.2 hv, Val.ptr_eq_some.2 ⟨rfl, Nat.pos_of_ne_zero hb⟩⟩

/-- When no root and no object holds a dangling handle, no reachable handle dangles. -/
theorem State.sound_of_closed {c : Config} {s : State} (hroots : ∀ a ∈ s.roots c, (s.heap.get a).isSome)
    (hobjs : ∀ k ∈ s.heap.cells, ∀ b ∈ k.obj.ptrs, (s.heap.get b).isSome) : s.Sound c := by
  intro a ha
  refine Mark.Reach.mem_of_closed (S := {a | (s.heap.get a).isSome}) hroots ?_ ha
  intro a b _ hab
  obtain ⟨o, ho, hb⟩ := Heap.edge_iff.1 hab
  obtain ⟨k, hk, -, rfl⟩ := Heap.get_eq_some.1 ho
  exact hobjs k hk b hb

/-! ## Marks -/

namespace Heap

/-- The objects without their marks. -/
def bare (h : Heap) : List (Nat × Obj) := h.cells.map (fun k => (k.addr, k.obj))

/-- The addresses of the marked objects. -/
def Marked (h : Heap) : Set Nat := {a | ∃ k ∈ h.cells, k.addr = a ∧ k.marked = true}

/-- How many objects are not marked. -/
def unmarked (h : Heap) : Nat := h.cells.countP (fun k => !k.marked)

/-- Every mark is clear. -/
def Clear (h : Heap) : Prop := ∀ k ∈ h.cells, k.marked = false

instance (h : Heap) : Decidable h.Clear := inferInstanceAs (Decidable (∀ k ∈ h.cells, k.marked = false))

variable {h h' : Heap} {a : Nat}

theorem get_of_bare (hb : h.bare = h'.bare) : h.get = h'.get := by
  have hget : ∀ h : Heap, ∀ a, h.get a = (h.bare.find? (fun p => p.1 = a)).map Prod.snd := by
    intro h a
    simp only [get, cell?, bare, List.find?_map, Option.map_map, Function.comp_def]
  funext a
  rw [hget, hget, hb]

theorem bare_mark : (h.mark a).bare = h.bare := by
  simp only [bare, mark, mapCells, List.map_map]
  refine List.map_congr_left (fun k _ => ?_)
  simp only [Function.comp_apply]
  split <;> rfl

theorem bare_clearMarks : h.clearMarks.bare = h.bare := by
  simp [bare, clearMarks, mapCells]

theorem cells_of_clear (hc : h.Clear) : h.cells = h.bare.map (fun p => ⟨p.1, false, p.2⟩) := by
  rw [bare, List.map_map]
  exact (List.map_id' _).symm.trans (List.map_congr_left (fun k hk => by rw [← hc k hk]; rfl))

/-- Heaps with the same objects and clear marks are the same. -/
theorem eq_of_bare (hb : h.bare = h'.bare) (hn : h.next = h'.next) (hc : h.Clear) (hc' : h'.Clear) : h = h' := by
  have hh : h.cells = h'.cells := by rw [cells_of_clear hc, cells_of_clear hc', hb]
  cases h; cases h'
  simp only at hh hn
  subst hh hn
  rfl

theorem clear_clearMarks : h.clearMarks.Clear := by
  intro k hk
  obtain ⟨d, _, rfl⟩ := List.mem_map.1 hk
  rfl

theorem marked_of_clear (hc : h.Clear) : h.Marked = ∅ := by
  ext a
  simp only [Marked, Set.mem_ofPred_eq, Set.mem_empty_iff_false, iff_false, not_exists, not_and]
  intro k hk _
  simp [hc k hk]

theorem unmarked_le : h.unmarked ≤ h.cells.length := List.countP_le_length

variable {k : Cell}

theorem marked_mark (hk : k ∈ h.cells) (ha : k.addr = a) : (h.mark a).Marked = insert a h.Marked := by
  ext b
  simp only [Marked, mark, mapCells, List.mem_map, Set.mem_ofPred_eq, Set.mem_insert_iff]
  constructor
  · rintro ⟨_, ⟨d, hd, rfl⟩, hb⟩
    split at hb
    · exact .inl (by rename_i hda; rw [← hb.1, hda])
    · exact .inr ⟨d, hd, hb⟩
  · rintro (rfl | ⟨d, hd, hda, hdm⟩)
    · exact ⟨_, ⟨k, hk, rfl⟩, by simp [ha], by simp [ha]⟩
    · refine ⟨_, ⟨d, hd, rfl⟩, ?_, ?_⟩ <;> split <;> simp [hda, hdm]

/-- Marking an unmarked object leaves one unmarked object fewer. -/
theorem unmarked_mark (hk : k ∈ h.cells) (ha : k.addr = a) (hm : k.marked = false) :
    (h.mark a).unmarked + 1 = h.unmarked := by
  have key : ∀ l : List Cell, (l.map Cell.addr).Nodup → k ∈ l →
      (l.map (fun c => if c.addr = a then { c with marked := true } else c)).countP (fun d => !d.marked) + 1
        = l.countP (fun d => !d.marked) := by
    intro l
    induction l with
    | nil => intro _ hk; cases hk
    | cons d l ih =>
      intro hn hk
      simp only [List.map_cons, List.nodup_cons, List.mem_map, not_exists, not_and] at hn
      rcases List.mem_cons.1 hk with rfl | hk
      · have hrest : l.map (fun c => if c.addr = a then { c with marked := true } else c) = l := by
          refine (List.map_congr_left (fun c hc => ?_)).trans (List.map_id' _)
          rw [if_neg (fun hca => hn.1 c hc (hca.trans ha.symm))]
        simp [hrest, ha, hm]
      · have hda : d.addr ≠ a := fun hda => hn.1 k hk (ha.trans hda.symm)
        have := ih hn.2 hk
        simp only [List.map_cons, List.countP_cons, if_neg hda]
        omega
  exact key h.cells h.nodup hk

theorem mem_marked (hk : k ∈ h.cells) : k.addr ∈ h.Marked ↔ k.marked = true := by
  constructor
  · rintro ⟨d, hd, hda, hdm⟩
    rwa [← List.inj_on_of_nodup_map h.nodup hd hk hda]
  · exact fun hm => ⟨k, hk, rfl, hm⟩

/-- The sweep keeps the marked objects, in order, and clears their marks. -/
theorem cells_sweep {P : Nat → Prop} [DecidablePred P] (hb : h.bare = h'.bare) (hc : h'.Clear)
    (hP : ∀ a, a ∈ h.Marked ↔ P a) : h.sweep.cells = h'.cells.filter (fun k => P k.addr) := by
  have hcells : h'.cells = h.cells.map (fun k => { k with marked := false }) := by
    rw [cells_of_clear hc, ← hb, bare, List.map_map]
    rfl
  rw [hcells, List.filter_map]
  refine (sweepList_fst h.cells).trans ?_
  congr 1
  refine List.filter_congr (fun k hk => ?_)
  rw [Function.comp_apply, Bool.eq_iff_iff, ← mem_marked hk, decide_eq_true_iff]
  exact hP k.addr

end Heap

/-! ## The marking phase -/

variable {c : Config} {M : Mode Event} {s t : State} {todo : List Nat} {n : Nat}

/-- `t` is `s` but for the marks, the worklist and its buffer. -/
structure Marking (s t : State) : Prop where
  same : t = { s with heap := t.heap, gcMarklist := t.gcMarklist, gcMarklistCap := t.gcMarklistCap, allocs := t.allocs }
  bare : t.heap.bare = s.heap.bare
  next : t.heap.next = s.heap.next

/-- Marking is at `t`, with `todo` next to be visited and at most `n` objects still to
come off the worklist. -/
structure Tracing (c : Config) (s t : State) (todo : List Nat) (n : Nat) : Prop extends Marking s t where
  tri : Mark.Tri s.heap.Edge (s.roots c) t.heap.Marked t.gcMarklist todo
  count : t.heap.unmarked + t.gcMarklist.length ≤ n

/-- What a marking function ends in: marking goes on, or the worklist could not grow. -/
def Ends (c : Config) (s : State) (todo : List Nat) (n : Nat) (ok : Bool) (t : State) : Prop :=
  if ok then Tracing c s t todo n else Marking s t ∧ ∃ n size, c.alloc n size = false

theorem mlRawAlloc_spec {size : Nat} {E : Status → State → Prop} (hs : size ≠ 0) :
    wp M (mlRawAlloc c size) s
      (fun ok t => t = { s with allocs := t.allocs } ∧ (ok = false → ∃ n size, c.alloc n size = false)) E := by
  unfold mlRawAlloc
  rw [if_neg hs]
  exact wp_bind (wp_gets (wp_bind (wp_modify (wp_pure ⟨rfl, fun h => ⟨_, _, h⟩⟩))))

/-- What a collection records is accepted. -/
structure Collects (M : Mode Event) : Prop where
  pushed : ∀ a, M.good (.pushed a)
  noRoom : M.good .noRoom
  heap : ∀ h, M.good (.heap h)

theorem gcPushMark_spec {o : Nat} {E : Status → State → Prop} (hM : Collects M) :
    wp M (gcPushMark c o) t (fun ok u => if ok
      then u = { t with gcMarklist := o :: t.gcMarklist, gcMarklistCap := u.gcMarklistCap, allocs := u.allocs }
      else u = { t with allocs := u.allocs } ∧ ∃ n size, c.alloc n size = false) E := by
  have hpush : ∀ u : State, u = { t with gcMarklistCap := u.gcMarklistCap, allocs := u.allocs } →
      wp M (do modify fun s => { s with gcMarklist := o :: s.gcMarklist }
               emit (.pushed o)
               pure true) u (fun ok u => if ok
        then u = { t with gcMarklist := o :: t.gcMarklist, gcMarklistCap := u.gcMarklistCap, allocs := u.allocs }
        else u = { t with allocs := u.allocs } ∧ ∃ n size, c.alloc n size = false) E := by
    intro u hu
    refine wp_bind (wp_modify (wp_bind (wp_emit (fun _ => ⟨hM.pushed o, wp_pure ?_⟩))))
    rw [hu]
    rfl
  unfold gcPushMark
  refine wp_bind (wp_gets (wp_bind (wp_gets ?_)))
  dsimp only
  split
  · refine wp_bind (wp_mono (mlRawAlloc_spec (by split <;> omega)) ?_ (fun _ _ h => h))
    rintro ok u ⟨hu, hok⟩
    split
    · refine wp_bind (wp_modify (wp_bind (wp_pure ?_)))
      rw [if_pos rfl]
      exact hpush _ (by rw [hu])
    · rename_i h
      exact wp_bind (wp_pure (wp_bind (wp_emit fun _ => ⟨hM.noRoom, wp_pure ⟨hu, hok (by simpa using h)⟩⟩)))
  · exact wp_bind (wp_pure (hpush t rfl))

theorem Marking.trans {u : State} (h : Marking s t) (h' : Marking t u) : Marking s u where
  same := by rw [h'.same, h.same]
  bare := h'.bare.trans h.bare
  next := h'.next.trans h.next

theorem gcVisit_spec {v : Val} {E : Status → State → Prop} (hM : Collects M) (hs : M.safe → s.Sound c)
    (h : Tracing c s t (v.ptr.toList ++ todo) n) : wp M (gcVisit c v) t (Ends c s todo n) E := by
  unfold gcVisit
  split
  · exact wp_pure (by simpa [Ends, Val.ptr] using h)
  · rename_i a ha
    have hptr : (Val.obj a).ptr = some a := Val.ptr_eq_some.2 ⟨rfl, Nat.pos_of_ne_zero (fun h0 => ha (h0 ▸ rfl))⟩
    rw [hptr] at h
    refine wp_bind (wp_gets ?_)
    cases hk : t.heap.cell? a with
    | none =>
      refine wp_stuck fun hsafe => ?_
      have hlive := hs hsafe a (h.tri.todo_sound a (by simp))
      rw [← Heap.get_of_bare h.bare, Heap.get, hk] at hlive
      cases hlive
    | some k =>
    obtain ⟨hkm, hka⟩ := Heap.cell?_eq_some.1 hk
    dsimp only
    split
    · rename_i hm
      exact wp_pure ⟨h.toMarking, h.tri.visit_old (hka ▸ (Heap.mem_marked hkm).2 hm), h.count⟩
    · rename_i hm
      have hnew : a ∉ t.heap.Marked := fun ha => hm ((Heap.mem_marked hkm).1 (hka ▸ ha))
      have hmark : Marking s { t with heap := t.heap.mark a } := h.toMarking.trans ⟨rfl, Heap.bare_mark, rfl⟩
      refine wp_bind (wp_modify (wp_mono (gcPushMark_spec hM) ?_ (fun _ _ h => h)))
      intro ok u hu
      cases ok with
      | true =>
        simp only [if_true] at hu
        refine ⟨hmark.trans ⟨by rw [hu], by rw [hu], by rw [hu]⟩, ?_, ?_⟩ <;> rw [hu]
        · rw [Heap.marked_mark hkm hka]
          exact h.tri.visit_new hnew
        · have := h.count
          have := Heap.unmarked_mark hkm hka (by simpa using hm)
          simp only [List.length_cons]
          omega
      | false =>
        simp only [Bool.false_eq_true, if_false] at hu
        exact ⟨hmark.trans ⟨by rw [hu.1], by rw [hu.1], by rw [hu.1]⟩, hu.2⟩
  · rename_i hv
    have hptr : v.ptr = none := by
      cases v with
      | obj a => cases a with
        | zero => rfl
        | succ a => exact absurd rfl (hv (a + 1))
      | _ => rfl
    exact wp_pure (by simpa [Ends, hptr] using h)

theorem gcVisitAll_spec {vs : List Val} {E : Status → State → Prop} (hM : Collects M)
    (hs : M.safe → s.Sound c) : ∀ {t : State}, Tracing c s t (vs.filterMap Val.ptr ++ todo) n →
      wp M (gcVisitAll c vs) t (Ends c s todo n) E := by
  induction vs with
  | nil => exact fun h => wp_pure h
  | cons v vs ih =>
    intro t h
    have hcons : (v :: vs).filterMap Val.ptr = v.ptr.toList ++ vs.filterMap Val.ptr := by
      cases hp : v.ptr <;> simp [hp]
    rw [hcons, List.append_assoc] at h
    refine wp_bind (wp_mono (gcVisit_spec hM hs h) ?_ (fun _ _ h => h))
    intro ok u hu
    cases ok with
    | true => exact ih hu
    | false => exact wp_pure hu

/-- The drain ends before its bound is reached. -/
theorem gcDrainWorklist_spec {E : Status → State → Prop} (hM : Collects M) (hs : M.safe → s.Sound c) :
    ∀ {t : State}, Tracing c s t [] n →
      wp M (gcDrainWorklist c (n + 1)) t (fun ok u => Ends c s [] n ok u ∧ (ok = true → u.gcMarklist = [])) E := by
  induction n with
  | zero =>
    intro t h
    refine wp_bind (wp_gets ?_)
    have hw : t.gcMarklist = [] := List.length_eq_zero_iff.1 (by have := h.count; omega)
    rw [hw]
    exact wp_pure ⟨h, fun _ => hw⟩
  | succ n ih =>
    intro t h
    refine wp_bind (wp_gets ?_)
    cases hw : t.gcMarklist with
    | nil => exact wp_pure ⟨h, fun _ => hw⟩
    | cons o rest =>
      have htri := h.tri
      rw [hw] at htri
      refine wp_bind (wp_modify (wp_seq (readObj_wp fun hsafe => ?_) ?_))
      · exact Option.isSome_iff_exists.1 (Heap.get_of_bare h.bare ▸ hs hsafe o (htri.sound o (htri.queued o (by simp))))
      rintro obj u ⟨rfl, hread⟩
      have hobj : s.heap.get o = some obj := Heap.get_of_bare h.bare ▸ hread
      have hpop : Tracing c s { t with gcMarklist := rest } (obj.ptrs ++ []) n := by
        refine ⟨h.toMarking.trans ⟨rfl, rfl, rfl⟩, ?_, ?_⟩
        · rw [List.append_nil]
          exact htri.pop fun b => Heap.mem_ptrs hobj
        · have := h.count
          simp only [hw, List.length_cons] at this ⊢
          omega
      refine wp_bind (wp_mono (gcVisitAll_spec hM hs hpop) ?_ (fun _ _ h => h))
      intro ok u hu
      cases ok with
      | false => exact wp_pure ⟨hu, by simp⟩
      | true =>
        refine wp_mono (ih hu) (fun ok v hv => ⟨?_, hv.2⟩) (fun _ _ h => h)
        cases ok with
        | true => exact ⟨hv.1.toMarking, hv.1.tri, Nat.le_succ_of_le hv.1.count⟩
        | false => exact hv.1

/-! ## A whole collection -/

open Classical in
/-- What a collection that completes leaves: the reachable objects, in their order. -/
structure Collected (c : Config) (s t : State) : Prop where
  same : t = { s with
    heap := t.heap
    gcLiveObjects := t.heap.cells.length
    gcThreshold := nextThreshold t.heap.cells.length
    gcKept := some t.heap.cells.length
    gcMarklist := []
    gcMarklistCap := t.gcMarklistCap
    allocs := t.allocs }
  cells : t.heap.cells = s.heap.cells.filter (fun k => s.Reachable c k.addr)
  next : t.heap.next = s.heap.next

/-- What a collection that gives up leaves. -/
def Aborted (s t : State) : Prop :=
  t = { s with gcMarklist := [], gcMarklistCap := t.gcMarklistCap, allocs := t.allocs }

theorem Collected.get (h : Collected c s t) {a : Nat} {o : Obj} :
    t.heap.get a = some o ↔ s.heap.get a = some o ∧ s.Reachable c a := by
  simp only [Heap.get_eq_some, h.cells, List.mem_filter, decide_eq_true_eq]
  constructor
  · rintro ⟨k, ⟨hk, hr⟩, rfl, rfl⟩
    exact ⟨⟨k, hk, rfl, rfl⟩, hr⟩
  · rintro ⟨⟨k, hk, rfl, rfl⟩, hr⟩
    exact ⟨k, ⟨hk, hr⟩, rfl, rfl⟩

/-- A collection now would take a frame that some `eval_body` still needs. -/
def State.Losing (c : Config) (s : State) : Prop :=
  ∃ a, .obj a ∈ s.pending ∧ ¬ ((s.heap.get a).isSome ∧ s.Reachable c a)

theorem Collected.losing (h : Collected c s t) {v : Val} (hv : v ∈ s.pending) (hl : frameLost t v = true) :
    s.Losing c := by
  cases v with
  | obj a =>
    refine ⟨a, hv, fun ⟨hlive, hr⟩ => ?_⟩
    obtain ⟨o, ho⟩ := Option.isSome_iff_exists.1 hlive
    simp [frameLost, h.get.2 ⟨ho, hr⟩] at hl
  | _ => cases hl

theorem notePending_spec {E : Status → State → Prop}
    (hlost : (∃ v ∈ s.pending, frameLost s v = true) → ¬ M.excused .lostFrame → M.good .lostFrame) :
    wp M notePending s (fun _ t => t = s ∧
      (M.excused .lostFrame → ∀ v ∈ s.pending, frameLost s v = false)) E := by
  refine wp_bind (wp_gets ?_)
  split
  · rename_i h
    exact wp_emit (fun hx => ⟨hlost (List.any_eq_true.1 h) hx, rfl, fun h => absurd h hx⟩)
  · rename_i h
    exact wp_pure ⟨rfl, fun _ => by simpa using h⟩

theorem sweep_spec {E : Status → State → Prop} (hheap : ∀ h, M.good (.heap h)) (hlost : s.Losing c →
    ¬ M.excused .lostFrame → M.good .lostFrame)
    (hclear : s.heap.Clear) (h : Tracing c s t [] n) (hnil : t.gcMarklist = []) :
    wp M (do modify sweep
             modify fun s => { s with gcThreshold := nextThreshold s.gcLiveObjects, gcKept := some s.heap.cells.length }
             noteHeap
             notePending) t
      (fun _ u => Collected c s u ∧ (M.excused .lostFrame → ∀ v ∈ s.pending, frameLost u v = false)) E := by
  classical
  have htri := h.tri
  rw [hnil] at htri
  have hlive : (sweepList t.heap.cells).2 = t.heap.sweep.cells.length := by
    simp only [Heap.sweep, sweepList_fst, sweepList_snd, List.length_map]
  refine wp_bind (wp_modify (wp_bind (wp_modify (wp_seq (noteHeap_wp (hheap _)) ?_))))
  rintro _ _ rfl
  have hcollected : Collected c s
      { sweep t with
        gcThreshold := nextThreshold (sweep t).gcLiveObjects
        gcKept := some (sweep t).heap.cells.length } := by
    rw [h.same] at hnil ⊢
    refine ⟨?_, Heap.cells_sweep h.bare hclear (fun a => htri.done), h.next⟩
    simp only [sweep, hlive] at hnil ⊢
    rw [hnil]
  have hpending : State.pending
      { sweep t with
        gcThreshold := nextThreshold (sweep t).gcLiveObjects
        gcKept := some (sweep t).heap.cells.length } = s.pending := by
    rw [h.same]
    rfl
  refine wp_mono (notePending_spec fun h => h.elim fun v hl => hlost (hcollected.losing (hpending ▸ hl.1) hl.2)) ?_
    (fun _ _ h => h)
  rintro _ u ⟨rfl, hp⟩
  exact ⟨hcollected, hpending ▸ hp⟩

theorem abort_spec {E : Status → State → Prop} (hclear : s.heap.Clear) (h : Marking s t) :
    wp M (do modify gcClearAllMarks
             modify fun s => { s with gcMarklist := [] }) t (fun _ u => Aborted s u) E := by
  have hheap : t.heap.clearMarks = s.heap :=
    Heap.eq_of_bare (Heap.bare_clearMarks.trans h.bare) h.next Heap.clear_clearMarks hclear
  refine wp_bind (wp_modify (wp_modify ?_))
  rw [h.same]
  simp only [Aborted, gcClearAllMarks, hheap]

/-- A collection keeps exactly the reachable objects, or gives up and changes nothing. -/
theorem mlGcCollect_spec {E : Status → State → Prop} (hM : Collects M)
    (hlost : s.Losing c → ¬ M.excused .lostFrame → M.good .lostFrame) (hclear : s.heap.Clear)
    (hs : M.safe → s.Sound c) :
    wp M (mlGcCollect c) s (fun _ t =>
      (Collected c s t ∧ (M.excused .lostFrame → ∀ v ∈ s.pending, frameLost t v = false))
        ∨ (Aborted s t ∧ ∃ n size, c.alloc n size = false)) E := by
  have hstart : Tracing c s { s with gcMarklist := [] } (s.roots c ++ []) s.heap.cells.length := by
    refine ⟨⟨rfl, rfl, rfl⟩, ?_, Heap.unmarked_le⟩
    rw [List.append_nil, Heap.marked_of_clear (h := s.heap) hclear]
    exact .start
  unfold mlGcCollect
  refine wp_bind (wp_modify (wp_bind (wp_gets (wp_bind (wp_gets (wp_bind ?_))))))
  refine wp_mono (gcVisitAll_spec hM hs hstart) ?_ (fun _ _ h => h)
  intro ok t ht
  cases ok with
  | true =>
    refine wp_bind (wp_mono (gcDrainWorklist_spec hM hs ht) ?_ (fun _ _ h => h))
    rintro ok u ⟨hu, hnil⟩
    cases ok with
    | true => exact wp_mono (sweep_spec hM.heap hlost hclear hu (hnil rfl)) (fun _ _ h => .inl h) (fun _ _ h => h)
    | false => exact wp_mono (abort_spec hclear hu.1) (fun _ _ h => .inr ⟨h, hu.2⟩) (fun _ _ h => h)
  | false => exact wp_bind (wp_pure (wp_mono (abort_spec hclear ht.1) (fun _ _ h => .inr ⟨h, ht.2⟩) (fun _ _ h => h)))

/-! ## Each object is queued at most once -/

/-- No object is queued twice, nor one that was marked before. -/
def PushesOnce (s : State) (k : List Event) (_ : State) : Prop :=
  ∀ a, (.pushed a ∈ k → a ∉ s.heap.Marked) ∧ k.count (.pushed a) ≤ 1

/-- What is queued is marked, and what is marked stays marked. -/
structure Marks (s : State) (k : List Event) (t : State) : Prop where
  once : PushesOnce s k t
  pushed : ∀ a, .pushed a ∈ k → a ∈ t.heap.Marked
  kept : s.heap.Marked ⊆ t.heap.Marked

theorem Marks.of_heap {s t : State} (h : t.heap = s.heap) : Marks s [] t :=
  ⟨by simp [PushesOnce], by simp, by rw [h]⟩

/-- A later part of a run queues nothing that an earlier part has marked. -/
theorem Marks.append {s t u : State} {k l : List Event} (h : Marks s k t) (h' : PushesOnce t l u) :
    PushesOnce s (k ++ l) u := by
  intro a
  constructor
  · intro ha
    rcases List.mem_append.1 ha with ha | ha
    · exact (h.once a).1 ha
    · exact fun hm => (h' a).1 ha (h.kept hm)
  · rw [List.count_append]
    have hk := (h.once a).2
    have hl := (h' a).2
    by_cases ha : .pushed a ∈ k
    · have : l.count (.pushed a) = 0 := List.count_eq_zero.2 (fun hl => (h' a).1 hl (h.pushed a ha))
      omega
    · have : k.count (.pushed a) = 0 := List.count_eq_zero.2 ha
      omega

theorem Marks.trans {s t u : State} {k l : List Event} (h : Marks s k t) (h' : Marks t l u) : Marks s (k ++ l) u where
  once := h.append h'.once
  pushed := by
    intro a ha
    rcases List.mem_append.1 ha with ha | ha
    · exact h'.kept (h.pushed a ha)
    · exact h'.pushed a ha
  kept := h.kept.trans h'.kept

theorem marks_bind {α β : Type} {m : ML α} {f : α → ML β} (h : Traced Marks m) (hk : ∀ a, Traced Marks (f a)) :
    Traced Marks (m >>= f) :=
  .bind h hk (fun _ _ _ h => h) (fun _ _ _ _ _ => Marks.trans)

/-- Nothing is queued and no mark changes. -/
def Quiet (s : State) (k : List Event) (t : State) : Prop := t.heap = s.heap ∧ k = []

theorem Quiet.rfl {s : State} : Quiet s [] s := ⟨Eq.refl _, Eq.refl _⟩

theorem quiet_bind {α β : Type} {T : State → List Event → State → Prop} {m : ML α} {f : α → ML β}
    (h : Traced Quiet m) (hk : ∀ a, Traced T (f a)) (hT : ∀ s t u l, t.heap = s.heap → T t l u → T s l u)
    (hr : ∀ s t, t.heap = s.heap → T s [] t) : Traced T (m >>= f) := by
  refine .bind h hk ?_ ?_
  · rintro s k t ⟨hh, rfl⟩
    exact hr s t hh
  · rintro s k t l u ⟨hh, rfl⟩ ht
    exact hT s t u l hh ht

/-- At most `o` is queued. -/
def Queues (o : Nat) (s : State) (k : List Event) (t : State) : Prop :=
  t.heap = s.heap ∧ (k = [] ∨ k = [.noRoom] ∨ k = [.pushed o])

theorem queues_bind {o : Nat} {α β : Type} {m : ML α} {f : α → ML β} (h : Traced Quiet m)
    (hk : ∀ a, Traced (Queues o) (f a)) : Traced (Queues o) (m >>= f) :=
  quiet_bind h hk (fun _ _ _ _ hh ht => ⟨ht.1.trans hh, ht.2⟩) (fun _ _ hh => ⟨hh, .inl rfl⟩)

theorem mlRawAlloc_quiet {size : Nat} : Traced Quiet (mlRawAlloc c size) := by
  unfold mlRawAlloc
  split
  · exact .pure (fun _ => .rfl)
  · intro s
    exact ⟨rfl, rfl⟩

theorem gcPushMark_traced {o : Nat} : Traced (Queues o) (gcPushMark c o) := by
  have hpush : ∀ room : Bool, Traced (Queues o) ((if room = true then do
      modify fun s => { s with gcMarklist := o :: s.gcMarklist }
      emit (.pushed o)
      pure true
    else do
      emit .noRoom
      pure false : ML Bool)) := by
    intro room s
    cases room
    · exact ⟨rfl, .inr (.inl rfl)⟩
    · exact ⟨rfl, .inr (.inr rfl)⟩
  unfold gcPushMark
  refine queues_bind (.gets fun _ => .rfl) (fun count => queues_bind (.gets fun _ => .rfl) (fun cap => ?_))
  dsimp only
  split
  · refine queues_bind mlRawAlloc_quiet (fun ok => ?_)
    split
    · exact queues_bind (.modify fun _ => ⟨rfl, rfl⟩) (fun _ => queues_bind (.pure fun _ => .rfl) hpush)
    · exact queues_bind (.pure fun _ => .rfl) hpush
  · exact queues_bind (.pure fun _ => .rfl) hpush

theorem gcVisit_traced {v : Val} : Traced Marks (gcVisit c v) := by
  intro s
  unfold gcVisit
  split
  · exact .of_heap rfl
  · rename_i a _
    rw [gets_bind_run]
    cases hk : s.heap.cell? a with
    | none => exact .of_heap rfl
    | some k =>
      obtain ⟨hkm, hka⟩ := Heap.cell?_eq_some.1 hk
      dsimp only
      split
      · exact .of_heap rfl
      · rename_i hm
        have hnew : a ∉ s.heap.Marked := fun ha => hm ((Heap.mem_marked hkm).1 (hka ▸ ha))
        rw [modify_bind_run]
        obtain ⟨hheap, htrace⟩ := gcPushMark_traced (c := c) (o := a) { s with heap := s.heap.mark a }
        have hmarked : ∀ b, b = a ∨ b ∈ s.heap.Marked →
            b ∈ (gcPushMark c a { s with heap := s.heap.mark a }).state.heap.Marked := by
          intro b hb
          rw [hheap]
          exact (Heap.marked_mark hkm hka).symm ▸ hb
        refine ⟨fun b => ?_, fun b hb => ?_, fun b hb => hmarked b (.inr hb)⟩
        · rcases htrace with htrace | htrace | htrace <;> rw [htrace]
          · simp
          · simp
          · constructor
            · intro hb
              obtain rfl : b = a := by simpa using hb
              exact hnew
            · exact List.nodup_iff_count_le_one.1 (List.nodup_singleton _) _
        · rcases htrace with htrace | htrace | htrace <;> rw [htrace] at hb
          · simp at hb
          · simp at hb
          · exact hmarked b (.inl (by simpa using hb))
  · exact .of_heap rfl

theorem gcVisitAll_traced (vs : List Val) : Traced Marks (gcVisitAll c vs) := by
  induction vs with
  | nil => exact .pure (fun _ => .of_heap rfl)
  | cons v vs ih =>
    refine marks_bind gcVisit_traced (fun ok => ?_)
    cases ok with
    | true => exact ih
    | false => exact .pure (fun _ => .of_heap rfl)

theorem gcDrainWorklist_traced (n : Nat) : Traced Marks (gcDrainWorklist c n) := by
  induction n with
  | zero => exact .timeout (fun _ => .of_heap rfl)
  | succ n ih =>
    refine marks_bind (.gets (fun _ => .of_heap rfl)) (fun w => ?_)
    cases w with
    | nil => exact .pure (fun _ => .of_heap rfl)
    | cons o rest =>
      have hread : Traced Marks (readObj o) := by
        refine marks_bind (.gets (fun _ => .of_heap rfl)) (fun o => ?_)
        cases o with
        | none => exact .stuck (fun _ => .of_heap rfl)
        | some o => exact .pure (fun _ => .of_heap rfl)
      refine marks_bind (.modify (fun _ => .of_heap rfl)) (fun _ => marks_bind hread (fun obj => ?_))
      refine marks_bind (gcVisitAll_traced obj.refs) (fun ok => ?_)
      cases ok with
      | true => exact ih
      | false => exact .pure (fun _ => .of_heap rfl)

theorem mlGcCollect_traced : Traced PushesOnce (mlGcCollect c) := by
  have hquiet : ∀ {α β : Type} {m : ML α} {f : α → ML β}, Traced Quiet m → (∀ a, Traced PushesOnce (f a)) →
      Traced PushesOnce (m >>= f) := fun h hk =>
    quiet_bind h hk (fun _ _ _ _ hh ht => by simpa only [PushesOnce, hh] using ht)
      (fun _ _ _ => by simp [PushesOnce])
  have hmarks : ∀ {α β : Type} {m : ML α} {f : α → ML β}, Traced Marks m → (∀ a, Traced PushesOnce (f a)) →
      Traced PushesOnce (m >>= f) := fun h hk =>
    .bind h hk (fun _ _ _ ht => ht.once) (fun _ _ _ _ _ => Marks.append)
  have hnone : ∀ ok : Bool, Traced PushesOnce ((if ok = true then do
      modify sweep
      modify fun s => { s with gcThreshold := nextThreshold s.gcLiveObjects, gcKept := some s.heap.cells.length }
      noteHeap
      notePending
    else do
      modify gcClearAllMarks
      modify fun s => { s with gcMarklist := [] } : ML Unit)) := by
    intro ok s
    cases ok with
    | false => simp [PushesOnce, Bind.bind, Prog.bind, Prog.modify]
    | true =>
      rw [if_pos rfl, modify_bind_run, modify_bind_run, noteHeap, bind_assoc, gets_bind_run, notePending]
      simp only [Bind.bind, Prog.bind, emit, gets]
      split <;> simp [PushesOnce, emit, Pure.pure, Prog.pure]
  unfold mlGcCollect
  refine hquiet (.modify fun _ => ⟨rfl, rfl⟩) (fun _ => hquiet (.gets fun _ => .rfl) (fun protect => ?_))
  refine hquiet (.gets fun _ => .rfl) (fun objects => hmarks (gcVisitAll_traced _) (fun rootsOk => ?_))
  cases rootsOk with
  | true => exact hmarks (gcDrainWorklist_traced _) hnone
  | false => exact hquiet (.pure fun _ => .rfl) hnone

open Classical in
/-- On a heap without marks, whose reachable handles do not dangle, and with a worklist that
can grow, a collection leaves exactly the reachable objects, as they were and in their order,
with clear marks, and queues each object at most once. -/
theorem mlGcCollect_exact (s : State) (hclear : s.heap.Clear) (hsound : s.Sound c)
    (hgrow : ∀ n size, c.alloc n size = true) :
    (mlGcCollect c s).res = .ok () ∧
      (mlGcCollect c s).state.heap.cells = s.heap.cells.filter (fun k => s.Reachable c k.addr) ∧
      (mlGcCollect c s).state.heap.Clear ∧
      (mlGcCollect c s).state.gcMarklist = [] ∧
      (mlGcCollect c s).state.gcLiveObjects = (mlGcCollect c s).state.heap.cells.length ∧
      ∀ a, (mlGcCollect c s).trace.count (.pushed a) ≤ 1 := by
  obtain ⟨_, hres, h⟩ := ok_of_wp_fully (mlGcCollect_spec (M := .fully) (c := c) (s := s)
    ⟨fun _ => trivial, trivial, fun _ => trivial⟩ (fun _ _ => trivial) hclear fun _ => hsound)
  rcases h with ⟨h, -⟩ | ⟨-, n, size, hn⟩
  · refine ⟨hres, h.cells, ?_, by rw [h.same], by rw [h.same], fun a => (mlGcCollect_traced s a).2⟩
    intro k hk
    rw [h.cells] at hk
    exact hclear k (List.mem_filter.1 hk).1
  · rw [hgrow] at hn
    exact absurd hn (by decide)

/-- A collection records a lost frame only when the roots do not lead to a pending one. -/
theorem mlGcCollect_keeps_frames (s : State) (hclear : s.heap.Clear) (hs : ¬ s.Losing c) :
    .lostFrame ∉ (mlGcCollect c s).trace := by
  let M : Mode Event := ⟨fun _ => False, (· ≠ .lostFrame), False, False⟩
  have hM : Collects M := ⟨fun _ => by simp [M], by simp [M], fun _ => by simp [M]⟩
  have h := mlGcCollect_spec (E := fun _ _ => True) hM (fun h => absurd h hs) hclear False.elim
  exact fun hmem => (h fun _ _ => id).1 _ hmem rfl

/-- A top-level frame that binds a closure made in it, and a pair that nothing holds. -/
def State.cyclic : State :=
  { State.created with
    heap := ((Heap.empty.alloc (.env mvNil [(.sym 13, .obj 2)] 8)).alloc (.closure (.obj 1) mvNil mvNil false 0)).alloc
      (.pair mvNil mvNil)
    gcLiveObjects := 3 }

/-- The frame is a root and holds the closure, and these two hold each other alone. -/
theorem State.cyclic_reachable {a : Nat} : State.cyclic.Reachable .created a ↔ a = 1 ∨ a = 2 := by
  constructor
  · refine Mark.Reach.mem_of_closed (S := {a | a = 1 ∨ a = 2}) (fun a ha => .inl ?_) ?_
    · exact List.mem_singleton.1 ha
    · intro a b ha hab
      obtain ⟨o, ho, hb⟩ := Heap.edge_iff.1 hab
      rcases ha with rfl | rfl
      · cases ho
        exact .inr (List.mem_singleton.1 hb)
      · cases ho
        exact .inl (List.mem_singleton.1 hb)
  · have hframe : State.cyclic.Reachable .created 1 := .root List.mem_cons_self
    rintro (rfl | rfl)
    · exact hframe
    · exact hframe.field rfl (List.mem_cons_of_mem _ List.mem_cons_self) (by decide)

/-- The frame and the closure stay, though they form a cycle, and the pair goes. -/
theorem mlGcCollect_exact_cyclic :
    State.cyclic.heap.Clear ∧ State.cyclic.Sound .created ∧
      State.cyclic.heap.cells.map Cell.addr = [3, 2, 1] ∧
      (mlGcCollect .created State.cyclic).state.heap.cells.map Cell.addr = [2, 1] := by
  have hclear : State.cyclic.heap.Clear := by decide
  have hsound : State.cyclic.Sound .created := State.sound_of_closed (by decide) (by decide)
  refine ⟨hclear, hsound, rfl, ?_⟩
  rw [(mlGcCollect_exact State.cyclic hclear hsound (fun _ _ => rfl)).2.1]
  simp only [State.cyclic_reachable]
  rfl

end Microlisp
