import Microlisp.Arith
import Microlisp.Safety.WellFormed
/-!
# Memory operations keep a state well-formed

A collection keeps everything that the roots hold; where it takes a frame that an
`eval_body` still needs, the run is marked by an event and no longer judged. With
collections disabled there is no such run.
-/
namespace Microlisp

open Prog

/-- How evaluations are judged: never stuck, unless a pending frame was lost. -/
structure EvalMode (c : Config) (M : Mode Event) : Prop extends Collects M, Counts M where
  called : ∀ argv, M.good (.called argv)
  lost : M.excused .lostFrame ∨ ∀ s, c.collectDue s = false
  total : ¬ M.total

/-- `t` follows `s` with `l` pushed since, and is well-formed. -/
structure State.Good (c : Config) (s : State) (l : List Val) (t : State) : Prop where
  reached : s.At c l t
  wf : t.WellFormed c

/-- A value, and one that the roots hold. -/
structure State.Holds (c : Config) (s : State) (v : Val) : Prop where
  ok : s.heap.ValOk v
  kept : v.In (s.Kept c)

/-- A frame, and one that the roots hold. -/
structure State.HoldsFrame (c : Config) (s : State) (v : Val) : Prop where
  ok : s.heap.FrameOk v
  kept : v.In (s.Kept c)

section Facts
variable {c : Config} {s t u : State} {l r : List Val} {v a d : Val} {o : Obj}

theorem State.Good.refl (hs : s.WellFormed c) : s.Good c [] s := ⟨.refl, hs⟩

theorem State.Good.trans (h : s.Good c l t) (h' : t.Good c r u) : s.Good c (l ++ r) u where
  reached := {
    protect := by rw [h'.reached.protect, h.reached.protect, List.append_assoc]
    evalDepth := h'.reached.evalDepth.trans h.reached.evalDepth
    printDepth := h'.reached.printDepth.trans h.reached.printDepth
    equalDepth := h'.reached.equalDepth.trans h.reached.equalDepth
    pending := h'.reached.pending.trans h.reached.pending
    heap := h.reached.heap.trans h'.reached.heap
    entries := h.reached.entries.trans h'.reached.entries
    lastError := h'.reached.lastError.trans h.reached.lastError }
  wf := h'.wf

theorem State.Good.seq (h : s.Good c l t) (h' : t.Good c [] u) : s.Good c l u := by
  simpa using h.trans h'

theorem State.Good.later (h : s.Good c l t) : s.Later c t where
  heap := h.reached.heap
  held := by
    intro v hv
    simp only [State.held, h.reached.protect, h.reached.pending, List.mem_cons, List.mem_append] at hv ⊢
    tauto

theorem State.Good.agree (h : s.Good c l t) : s.heap.Agree (s.Kept c) t.heap := (h.later.agree h.wf).1

theorem State.Good.kept (h : s.Good c l t) (hv : v.In (s.Kept c)) : v.In (t.Kept c) :=
  fun a ha => (h.later.agree h.wf).2 a (hv a ha)

theorem State.Good.holds (h : s.Good c l t) (hv : s.Holds c v) : t.Holds c v :=
  ⟨h.agree.valOk hv.kept hv.ok, h.kept hv.kept⟩

theorem State.Good.holdsFrame (h : s.Good c l t) (hv : s.HoldsFrame c v) : t.HoldsFrame c v :=
  ⟨h.agree.frameOk hv.kept hv.ok, h.kept hv.kept⟩

/-- What has been pushed is held. -/
theorem State.Good.pushed (h : s.Good c l t) (hv : v ∈ l) : v.In (t.Kept c) :=
  State.kept_of_protect (by rw [h.reached.protect]; simp [hv])

theorem State.Holds.car (hs : s.WellFormed c) (hv : s.Holds c v) (h : s.heap.Has v (.pair a d)) : s.Holds c a := by
  obtain ⟨x, _, hx⟩ := id h
  exact ⟨(hs.objs x _ hx).1, State.kept_field hv.kept h (by simp [Obj.fixedRefs])⟩

theorem State.Holds.cdr (hs : s.WellFormed c) (hv : s.Holds c v) (h : s.heap.Has v (.pair a d)) : s.Holds c d := by
  obtain ⟨x, _, hx⟩ := id h
  exact ⟨(hs.objs x _ hx).2, State.kept_field hv.kept h (by simp [Obj.fixedRefs])⟩

/-- A value that is a handle at all has its object. -/
theorem Heap.ValOk.holds {h : Heap} (hv : h.ValOk v) : h.Holds v := by
  rintro b rfl -
  obtain ⟨o, ho, -⟩ := hv
  exact ⟨o, ho⟩

theorem Heap.FrameOk.holds {h : Heap} (hv : h.FrameOk v) : h.Holds v := by
  rintro b rfl -
  obtain ⟨f, _, ⟨⟩, hf⟩ := hv
  exact ⟨_, hf⟩

/-- Only the heap, the protect stack and the pending frames count. -/
theorem State.WellFormed.of_eq (hs : s.WellFormed c) (hheap : t.heap = s.heap) (hp : ∀ v ∈ t.gcProtect, v ∈ s.gcProtect)
    (hpend : ∀ v ∈ t.pending, v ∈ s.pending) : t.WellFormed c where
  clear := hheap ▸ hs.clear
  objs := hheap ▸ hs.objs
  toplevel := hheap ▸ hs.toplevel
  protect := fun v hv => hheap ▸ hs.protect v (hp v hv)
  pending := fun v hv => hheap ▸ hs.pending v (hpend v hv)

theorem State.WellFormed.restore (hs : s.WellFormed c) (n : Nat) : (mlGcRestore n s).WellFormed c :=
  hs.of_eq rfl (fun _ hv => List.mem_of_mem_take hv) (fun _ h => h)

theorem State.WellFormed.unprotect (hs : s.WellFormed c) (n : Nat) : (mlGcUnprotect n s).WellFormed c :=
  hs.of_eq rfl (fun _ hv => List.mem_of_mem_take hv) (fun _ h => h)

theorem State.Good.restore (h : s.Good c (l ++ r) t) :
    s.Good c l (mlGcRestore (s.gcProtect.length + l.length) t) :=
  ⟨h.reached.restore, h.wf.restore _⟩

theorem State.Good.unprotect (h : s.Good c (l ++ r) t) : s.Good c l (mlGcUnprotect r.length t) :=
  ⟨h.reached.unprotect, h.wf.unprotect _⟩

end Facts

section Memory
variable {c : Config} {M : Mode Event} {s t : State} {l : List Val} {v : Val} {o : Obj} {α β : Type} {m : ML α}

theorem raise_safe {line column : Nat} {message : Bytes} {e : Status} {Q : α → State → Prop} (hs : s.WellFormed c) :
    wp M (raise line column message e : ML α) s Q (fun _ u => u.WellFormed c) :=
  wp_bind (wp_modify (wp_fail (hs.of_eq rfl (fun _ h => h) (fun _ h => h))))

/-- On an error, back to some height of the protect stack. -/
theorem onErr_restore_safe {Q : α → State → Prop} {n : Nat} (h : wp M m s Q (fun _ u => u.WellFormed c)) :
    wp M (m.onErr (mlGcRestore n)) s Q (fun _ u => u.WellFormed c) :=
  wp_onErr (wp_mono h (fun _ _ h => h) (fun _ _ h => h.restore n))

theorem onErr_unprotect_safe {Q : α → State → Prop} {n : Nat} (h : wp M m s Q (fun _ u => u.WellFormed c)) :
    wp M (m.onErr (mlGcUnprotect n)) s Q (fun _ u => u.WellFormed c) :=
  wp_onErr (wp_mono h (fun _ _ h => h) (fun _ _ h => h.unprotect n))

theorem savepoint_safe {f : Nat → ML β} {Q : β → State → Prop} {E : Status → State → Prop}
    (h : wp M (f s.gcProtect.length) s Q E) : wp M (mlGcSavepoint >>= f) s Q E :=
  wp_bind (wp_gets h)

theorem rawAllocOrFail_safe {size : Nat} (hs : s.WellFormed c) :
    wp M (rawAllocOrFail c size) s (fun _ u => s.Good c [] u ∧ u.heap = s.heap) (fun _ u => u.WellFormed c) := by
  refine wp_mono rawAllocOrFail_wp (fun _ u hu => ?_) ?_
  · rw [hu]
    exact ⟨⟨{ State.At.refl with }, hs.of_eq rfl (fun _ h => h) (fun _ h => h)⟩, rfl⟩
  · rintro e u ⟨-, -, hu⟩
    rw [hu]
    exact hs.of_eq rfl (fun _ h => h) (fun _ h => h)

theorem mlGcProtect_safe (hs : s.WellFormed c) (hv : s.heap.ValOk v ∨ s.heap.FrameOk v) :
    wp M (mlGcProtect c v) s (fun _ u => s.Good c [v] u ∧ u.heap = s.heap) (fun _ u => u.WellFormed c) := by
  refine wp_mono mlGcProtect_wp (fun _ u hu => ?_) ?_
  · rw [hu]
    refine ⟨⟨{ State.At.refl with protect := rfl }, hs.clear, hs.objs, hs.toplevel, ?_, hs.pending⟩, rfl⟩
    intro w hw
    rcases List.mem_append.1 hw with hw | hw
    · exact hs.protect w hw
    · exact List.mem_singleton.1 hw ▸ hv
  · rintro e u ⟨-, -, hu⟩
    rw [hu]
    exact hs.of_eq rfl (fun _ h => h) (fun _ h => h)

/-! ## Collections -/

/-- No reachable handle of a well-formed state dangles. -/
theorem State.WellFormed.sound (hs : s.WellFormed c) : s.Sound c := by
  refine State.sound_of_closed ?_ ?_
  · intro a ha
    obtain ⟨v, hv, hva⟩ := List.mem_filterMap.1 ha
    obtain ⟨rfl, -⟩ := Val.ptr_eq_some.1 hva
    rcases List.mem_cons.1 hv with hv | hv
    · exact Option.isSome_iff_exists.2 (hs.toplevel.has hv.symm)
    · exact Option.isSome_iff_exists.2 ((hs.protect _ hv).elim (fun h => h.has rfl) (fun h => h.has rfl))
  · intro k hk b hb
    obtain ⟨v, hv, hvb⟩ := List.mem_filterMap.1 hb
    obtain ⟨rfl, -⟩ := Val.ptr_eq_some.1 hvb
    exact Option.isSome_iff_exists.2 ((hs.objs k.addr k.obj (Heap.get_eq_some.2 ⟨k, hk, rfl, rfl⟩)).live hv)

theorem State.reachable_of_root {a : Nat} (hs : s.WellFormed c) (h : .obj a ∈ c.toplevelEnv :: s.gcProtect) :
    s.Reachable c a := by
  have hget : ∃ o, s.heap.get a = some o := by
    rcases List.mem_cons.1 h with hv | hv
    · exact hs.toplevel.has hv.symm
    · exact (hs.protect _ hv).elim (fun h => h.has rfl) (fun h => h.has rfl)
  obtain ⟨o, ho⟩ := hget
  exact .root (List.mem_filterMap.2 ⟨_, h, Val.ptr_eq_some.2 ⟨rfl, (Heap.lt_next_of_get ho).1⟩⟩)

/-- A collection that loses no pending frame leaves a well-formed state. -/
theorem Collected.wellFormed (h : Collected c s t) (hs : s.WellFormed c)
    (hp : ∀ v ∈ s.pending, frameLost t v = false) : t.WellFormed c := by
  have hagree : s.heap.Agree (s.Reachable c) t.heap := by
    refine ⟨fun a ha o ho => ⟨o, h.get.2 ⟨ho, ha⟩, .refl o⟩, fun a ha o ho b hb => ?_⟩
    obtain ⟨o', ho'⟩ := (hs.objs a o ho).live (Obj.fixedRefs_sub hb)
    exact ha.field ho (Obj.fixedRefs_sub hb) (Nat.ne_of_gt (Heap.lt_next_of_get ho').1)
  have hroot : ∀ v ∈ c.toplevelEnv :: s.gcProtect, v.In (s.Reachable c) := by
    rintro v hv a rfl
    exact State.reachable_of_root hs hv
  have hprotect : t.gcProtect = s.gcProtect := by rw [h.same]
  have hpending : t.pending = s.pending := by rw [h.same]
  refine ⟨?_, ?_, ?_, ?_, ?_⟩
  · intro k hk
    rw [h.cells] at hk
    exact hs.clear k (List.mem_filter.1 hk).1
  · intro a o ho
    obtain ⟨ho, ha⟩ := h.get.1 ho
    refine hagree.objOk ?_ (hs.objs a o ho)
    rintro v hv b rfl
    obtain ⟨o', ho'⟩ := (hs.objs a o ho).live hv
    exact ha.field ho hv (Nat.ne_of_gt (Heap.lt_next_of_get ho').1)
  · exact hagree.frameOk (hroot _ (by simp)) hs.toplevel
  · intro v hv
    rw [hprotect] at hv
    exact (hs.protect v hv).imp (hagree.valOk (hroot v (by simp [hv]))) (hagree.frameOk (hroot v (by simp [hv])))
  · intro v hv
    rw [hpending] at hv
    refine hagree.frameOk ?_ (hs.pending v hv)
    rintro a rfl
    have hlost := hp _ hv
    simp only [frameLost, Option.isNone_eq_false_iff, Option.isSome_iff_exists] at hlost
    obtain ⟨o, ho⟩ := hlost
    exact (h.get.1 ho).2

variable (hM : EvalMode c M)
include hM

theorem maybeCollect_safe (hs : s.WellFormed c) :
    wp M (maybeCollect c) s (fun _ u => s.Good c [] u) (fun _ u => u.WellFormed c) := by
  have hwf : wp M (maybeCollect c) s (fun _ u => u.WellFormed c) (fun _ _ => False) := by
    refine wp_bind (wp_gets ?_)
    split
    · rename_i hdue
      have hexc : M.excused .lostFrame := hM.lost.resolve_right fun h => by simp [h] at hdue
      refine wp_mono (mlGcCollect_spec hM.toCollects (fun _ h => absurd hexc h) hs.clear fun _ => hs.sound) ?_
        (fun _ _ h => h)
      rintro _ u (⟨hu, hp⟩ | ⟨hu, -⟩)
      · exact hu.wellFormed hs (hp hexc)
      · rw [hu]
        exact hs.of_eq rfl (fun _ h => h) (fun _ h => h)
    · exact wp_pure hs
  have hat := maybeCollect_keeps (c := c) (S := fun _ => True) (l := []) s .refl
  exact wp_mono (wp_and hat hwf) (fun _ _ h => ⟨h.1, h.2⟩) (fun _ _ h => h.2.elim)

omit hM in
theorem Heap.agree_alloc {h : Heap} : h.Agree (fun _ => True) (h.alloc o) := by
  refine .of_all fun a o' ho => ⟨o', ?_, .refl o'⟩
  rw [Heap.get_alloc, if_neg (Nat.ne_of_lt (Heap.lt_next_of_get ho).2), ho]

omit hM in
theorem Val.in_all : v.In fun _ => True := fun _ _ => trivial

omit hM in
/-- A new object of the right shape. -/
theorem State.WellFormed.alloc (hs : s.WellFormed c) (hok : s.heap.ObjOk o) :
    ({ s with heap := s.heap.alloc o } : State).WellFormed c := by
  have hx : s.heap.Agree (fun _ => True) (s.heap.alloc o) := Heap.agree_alloc
  refine ⟨?_, ?_, hx.frameOk Val.in_all hs.toplevel, ?_, ?_⟩
  · intro k hk
    rcases List.mem_cons.1 hk with rfl | hk
    · rfl
    · exact hs.clear k hk
  · intro a o' ho
    rw [Heap.get_alloc] at ho
    split at ho
    · cases ho
      exact hx.objOk (fun _ _ => Val.in_all) hok
    · exact hx.objOk (fun _ _ => Val.in_all) (hs.objs a o' ho)
  · exact fun v hv => (hs.protect v hv).imp (hx.valOk Val.in_all) (hx.frameOk Val.in_all)
  · exact fun v hv => hx.frameOk Val.in_all (hs.pending v hv)

/-- A new object whose fields are held. -/
theorem gcAlloc_safe {size : Nat} (hs : s.WellFormed c) (hok : s.heap.ObjOk o) (hrefs : ∀ v ∈ o.refs, v.In (s.Kept c)) :
    wp M (gcAlloc c size o) s (fun v u => s.Good c [] u ∧ u.heap.Has v o) (fun _ u => u.WellFormed c) := by
  refine wp_seq (maybeCollect_safe hM hs) fun _ t ht => wp_seq (rawAllocOrFail_safe ht.wf) fun _ u hu => ?_
  have hu' := ht.seq hu.1
  have hok' := hu'.agree.objOk hrefs hok
  refine wp_mono (linkObject_wp (hM.heap _)) ?_ (fun _ _ h => h)
  rintro _ w ⟨rfl, rfl⟩
  refine ⟨⟨{ hu'.reached with heap := hu'.reached.heap.alloc o }, ?_⟩, _, rfl, by rw [Heap.get_alloc, if_pos rfl]⟩
  exact (hu'.wf.alloc hok').of_eq rfl (fun _ h => h) (fun _ h => h)

end Memory
end Microlisp
