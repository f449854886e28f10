import Microlisp.Balance.Inside
/-!
# A collection that gives up changes nothing

When the worklist cannot grow, the marking functions of `gc.c` return at once, and
`ml_gc_collect` clears the marks. What is left differs from the state before in the
worklist's buffer and the number of allocator requests alone, and a collection that
can grow its worklist does not see the difference.
-/
namespace Microlisp

open Prog

variable {c d : Config} {s t : State} {α : Type}

/-! ## A refusal ends the marking -/

/-- `m` never runs out of room. -/
def Roomy (m : ML α) : Prop := ∀ s, .noRoom ∉ (m s).trace

/-- Where the worklist cannot grow, `m` returns false. -/
def Stops (m : ML Bool) : Prop := ∀ s, .noRoom ∈ (m s).trace → (m s).res = .ok false

theorem Stops.of_roomy {m : ML Bool} (h : Roomy m) : Stops m := fun s hs => absurd hs (h s)

theorem Stops.after {m : ML α} {f : α → ML Bool} (h : Roomy m) (hk : ∀ a, Stops (f a)) : Stops (m >>= f) := by
  intro s
  simp only [Bind.bind, Prog.bind]
  cases (m s).res with
  | error e => exact fun hs => absurd hs (h s)
  | ok a =>
    intro hs
    exact hk a _ ((List.mem_append.1 hs).resolve_left (h s))

/-- The code's `if (!ok) return 0;`. -/
theorem Stops.seq {m k : ML Bool} (h : Stops m) (hk : Stops k) :
    Stops (m >>= fun ok => if ok then k else pure false) := by
  intro s hs
  simp only [Bind.bind, Prog.bind] at hs ⊢
  have hm := h s
  cases hr : (m s).res with
  | error e =>
    rw [hr] at hs hm
    cases hm hs
  | ok ok =>
    rw [hr] at hs hm
    cases ok with
    | false => rfl
    | true =>
      refine hk _ ((List.mem_append.1 hs).resolve_left fun hs => ?_)
      cases hm hs

theorem Stops.ite {b : Prop} [Decidable b] {m k : ML Bool} (h : Stops m) (hk : Stops k) :
    Stops (if b then m else k) := by
  split
  · exact h
  · exact hk

theorem roomy_pure {a : α} : Roomy (pure a : ML α) := fun _ => List.not_mem_nil

theorem roomy_gets {f : State → α} : Roomy (gets f : ML α) := fun _ => List.not_mem_nil

theorem roomy_modify {f : State → State} : Roomy (modify f : ML Unit) := fun _ => List.not_mem_nil

theorem Roomy.bind {β : Type} {m : ML α} {f : α → ML β} (h : Roomy m) (hk : ∀ a, Roomy (f a)) : Roomy (m >>= f) := by
  intro s
  simp only [Bind.bind, Prog.bind]
  cases (m s).res with
  | error e => exact h s
  | ok a => exact fun hs => (List.mem_append.1 hs).elim (h s) (hk a _)

theorem Roomy.ite {b : Prop} [Decidable b] {m k : ML α} (h : Roomy m) (hk : Roomy k) : Roomy (if b then m else k) := by
  split
  · exact h
  · exact hk

theorem mlRawAlloc_roomy {size : Nat} : Roomy (mlRawAlloc c size) :=
  .ite roomy_pure (roomy_gets.bind fun _ => roomy_modify.bind fun _ => roomy_pure)

theorem gcPushMark_stops {o : Nat} : Stops (gcPushMark c o) := by
  have hpush : ∀ room : Bool, Stops (if room = true then do
      modify fun s => { s with gcMarklist := o :: s.gcMarklist }
      emit (.pushed o)
      pure true
    else do
      emit .noRoom
      pure false) := by
    intro room s hs
    cases room with
    | false => rfl
    | true => simp [Bind.bind, Prog.bind, Prog.modify, emit, Pure.pure, Prog.pure] at hs
  refine .after roomy_gets fun _ => .after roomy_gets fun _ => ?_
  refine .ite (.after mlRawAlloc_roomy fun _ => .ite ?_ ?_) (.after roomy_pure hpush)
  · exact .after roomy_modify fun _ => .after roomy_pure hpush
  · exact .after roomy_pure hpush

theorem gcVisit_stops {v : Val} : Stops (gcVisit c v) := by
  unfold gcVisit
  split
  · exact .of_roomy roomy_pure
  · refine .after roomy_gets fun k => ?_
    cases k with
    | none => exact .of_roomy fun _ => List.not_mem_nil
    | some k => exact .ite (.of_roomy roomy_pure) (.after roomy_modify fun _ => gcPushMark_stops)
  · exact .of_roomy roomy_pure

theorem gcVisitAll_stops (vs : List Val) : Stops (gcVisitAll c vs) := by
  induction vs with
  | nil => exact .of_roomy roomy_pure
  | cons v vs ih => exact gcVisit_stops.seq ih

theorem readObj_roomy {a : Nat} : Roomy (readObj a) := by
  refine roomy_gets.bind fun o => ?_
  cases o with
  | none => exact fun _ => List.not_mem_nil
  | some o => exact roomy_pure

theorem gcDrainWorklist_stops (n : Nat) : Stops (gcDrainWorklist c n) := by
  induction n with
  | zero => exact .of_roomy fun _ => List.not_mem_nil
  | succ n ih =>
    refine .after roomy_gets fun w => ?_
    cases w with
    | nil => exact .of_roomy roomy_pure
    | cons o rest =>
      exact .after roomy_modify fun _ => .after readObj_roomy fun obj => (gcVisitAll_stops obj.refs).seq ih

/-- The first half of `ml_gc_collect`: visit the roots, then drain the worklist. -/
def markRoots (c : Config) (protect : List Val) (objects : Nat) : ML Bool := do
  if ← gcVisitAll c (c.toplevelEnv :: protect) then gcDrainWorklist c (objects + 1) else pure false

/-- The second half: sweep, or clear the marks. -/
def finishCollect (ok : Bool) : ML Unit := do
  if ok then
    modify sweep
    modify fun s => { s with gcThreshold := nextThreshold s.gcLiveObjects, gcKept := some s.heap.cells.length }
    noteHeap
    notePending
  else
    modify gcClearAllMarks
    modify fun s => { s with gcMarklist := [] }

theorem mlGcCollect_run : mlGcCollect c s =
    (markRoots c s.gcProtect s.heap.cells.length >>= finishCollect) { s with gcMarklist := [] } := by
  rw [mlGcCollect, modify_bind_run, gets_bind_run, gets_bind_run, markRoots, bind_assoc]
  refine congrFun (congrArg (gcVisitAll c (c.toplevelEnv :: s.gcProtect) >>= ·) (funext fun rootsOk => ?_)) _
  cases rootsOk <;> rfl

theorem markRoots_stops {protect : List Val} {objects : Nat} : Stops (markRoots c protect objects) :=
  (gcVisitAll_stops _).seq (gcDrainWorklist_stops _)

theorem finishCollect_roomy {ok : Bool} : Roomy (finishCollect ok) := by
  refine .ite (roomy_modify.bind fun _ => roomy_modify.bind fun _ => .bind ?_ fun _ => roomy_gets.bind fun _ => ?_)
    (roomy_modify.bind fun _ => roomy_modify)
  · exact roomy_gets.bind fun _ _ => by simp [emit]
  · exact .ite (fun _ => by simp [emit]) roomy_pure

theorem markRoots_marking {protect : List Val} {objects : Nat} {E : Status → State → Prop} :
    Triple Mode.partly (Marking s) (markRoots c protect objects) (fun _ => Marking s) E := by
  have hM : Watches Mode.partly (fun _ => True) := watches_partly
  exact .seq (gcVisitAll_marking hM _) fun _ => .ite (fun _ => gcDrainWorklist_marking hM _) fun _ => .pure fun _ h => h

/-- Where the worklist cannot grow, the collection returns, and has changed nothing. -/
theorem mlGcCollect_aborted (hclear : s.heap.Clear) (hfail : .noRoom ∈ (mlGcCollect c s).trace) :
    (mlGcCollect c s).res = .ok () ∧ Aborted s (mlGcCollect c s).state := by
  rw [mlGcCollect_run] at hfail ⊢
  simp only [Bind.bind, Prog.bind] at hfail ⊢
  have hstop : _ → _ := @markRoots_stops c s.gcProtect s.heap.cells.length { s with gcMarklist := [] }
  have hstart : Marking s { s with gcMarklist := [] } := ⟨rfl, rfl, rfl⟩
  have hmark := (@markRoots_marking c s s.gcProtect s.heap.cells.length (fun _ _ => True) _ hstart fun _ _ => id).2
  cases hr : (markRoots c s.gcProtect s.heap.cells.length { s with gcMarklist := [] }).res with
  | error e =>
    rw [hr] at hfail hstop
    cases hstop hfail
  | ok ok =>
    rw [hr] at hfail hstop hmark
    cases hstop ((List.mem_append.1 hfail).resolve_right (finishCollect_roomy _))
    exact ⟨rfl, ((abort_spec (M := .partly) (E := fun _ _ => True) hclear hmark) fun _ _ => id).2⟩

/-! ## A later collection -/

/-- `t` is `s` but for the size of the worklist's buffer and the number of requests the
allocator has had. -/
def State.SameBut (s t : State) : Prop := t = { s with gcMarklistCap := t.gcMarklistCap, allocs := t.allocs }

/-- Two collections from states that are the same end alike. -/
def Alike (m : ML α) : Prop := Sim (fun _ => False) (fun _ => False) State.SameBut m m

theorem alike_gets {f : State → α} (h : ∀ s t, s.SameBut t → f s = f t) : Alike (gets f : ML α) := Sim.gets h

theorem alike_modify {f : State → State} (h : ∀ s t, s.SameBut t → (f s).SameBut (f t)) : Alike (modify f) :=
  Sim.modify h

section Granted
variable (hc : ∀ n size, c.alloc n size = true)
include hc

theorem mlRawAlloc_granted {size : Nat} {E : Status → State → Prop} (hs : size ≠ 0) :
    wp Mode.fully (mlRawAlloc c size) s (fun ok t => ok = true ∧ s.SameBut t) E := by
  unfold mlRawAlloc
  rw [if_neg hs]
  exact wp_bind (wp_gets (wp_bind (wp_modify (wp_pure ⟨hc _ _, rfl⟩))))

theorem gcPushMark_granted {o : Nat} (s : State) : wp Mode.fully (gcPushMark c o) s
    (fun ok u => ok = true ∧ State.SameBut { s with gcMarklist := o :: s.gcMarklist } u) (fun _ _ => False) := by
  have hpush : ∀ u : State, s.SameBut u → wp Mode.fully (do
      modify fun s => { s with gcMarklist := o :: s.gcMarklist }
      emit (.pushed o)
      pure true : ML Bool) u (fun ok u => ok = true ∧ State.SameBut { s with gcMarklist := o :: s.gcMarklist } u)
        (fun _ _ => False) := by
    intro u hu
    refine wp_bind (wp_modify (wp_bind (wp_emit fun _ => ⟨trivial, wp_pure ⟨rfl, ?_⟩⟩)))
    rw [State.SameBut] at *
    rw [hu]
  refine wp_bind (wp_gets (wp_bind (wp_gets ?_)))
  dsimp only
  split
  · refine wp_bind (wp_mono (mlRawAlloc_granted hc (by split <;> omega)) ?_ fun _ _ h => h)
    rintro ok u ⟨rfl, hu⟩
    refine wp_bind (wp_modify (wp_bind (wp_pure (hpush _ ?_))))
    rw [State.SameBut] at *
    rw [hu]
  · exact wp_bind (wp_pure (hpush s rfl))

theorem gcPushMark_alike {o : Nat} : Alike (gcPushMark c o) := by
  intro s t h
  refine simAt_of_fully (gcPushMark_granted hc s) (gcPushMark_granted hc t) ?_
  rintro a b u v ⟨rfl, hu⟩ ⟨rfl, hv⟩
  refine ⟨rfl, ?_⟩
  rw [State.SameBut] at *
  rw [hv, h, hu]

theorem gcVisit_alike {v : Val} : Alike (gcVisit c v) := by
  unfold gcVisit
  split
  · exact Sim.pure _
  · refine Sim.bind (alike_gets fun s t h => by rw [h]) fun k => ?_
    cases k with
    | none => exact Sim.stuck
    | some k =>
      refine Sim.ite (fun _ => .pure _) fun _ => Sim.bind (alike_modify fun s t h => ?_) fun _ => gcPushMark_alike hc
      rw [State.SameBut] at *
      rw [h]
  · exact Sim.pure _

theorem gcVisitAll_alike (vs : List Val) : Alike (gcVisitAll c vs) := by
  induction vs with
  | nil => exact Sim.pure _
  | cons v vs ih => exact Sim.bind (gcVisit_alike hc) fun _ => .ite (fun _ => ih) fun _ => .pure _

omit hc in
theorem readObj_alike {a : Nat} : Alike (readObj a) := by
  refine Sim.bind (alike_gets fun s t h => by rw [h]) fun o => ?_
  cases o with
  | none => exact Sim.stuck
  | some o => exact Sim.pure _

theorem gcDrainWorklist_alike (n : Nat) : Alike (gcDrainWorklist c n) := by
  induction n with
  | zero => exact Sim.timeout
  | succ n ih =>
    refine Sim.bind (alike_gets fun s t h => by rw [h]) fun w => ?_
    cases w with
    | nil => exact Sim.pure _
    | cons o rest =>
      refine Sim.bind (alike_modify fun s t h => ?_) fun _ => Sim.bind readObj_alike fun obj => ?_
      · rw [State.SameBut] at *
        rw [h]
      · exact Sim.bind (gcVisitAll_alike hc _) fun _ => .ite (fun _ => ih) fun _ => .pure _

omit hc in
theorem finishCollect_alike {ok : Bool} : Alike (finishCollect ok) := by
  have hmod : ∀ f : State → State, (∀ s x y, (f { s with gcMarklistCap := x, allocs := y }).SameBut (f s)) →
      Alike (modify f) := by
    intro f hf
    refine alike_modify fun s t h => ?_
    have := hf t s.gcMarklistCap s.allocs
    rw [State.SameBut] at h
    rw [h] at this ⊢
    exact this
  refine Sim.ite (fun _ => ?_) fun _ => Sim.bind (hmod _ fun _ _ _ => rfl) fun _ => hmod _ fun _ _ _ => rfl
  refine Sim.bind (hmod _ fun _ _ _ => rfl) fun _ => Sim.bind (hmod _ fun _ _ _ => rfl) fun _ =>
    noteHeap_sim.bind fun _ => ?_
  refine Sim.bind (alike_gets fun s t h => ?_) fun _ => .ite (fun _ => .emit _ _) fun _ => .pure _
  have hlost : frameLost s = frameLost t := by
    funext v
    cases v <;> simp only [frameLost]
    rw [h]
  rw [hlost, h]

/-- With room to grow, a collection does not see what an aborted one has left. -/
theorem mlGcCollect_alike (h : Aborted s t) :
    (mlGcCollect c t).res = (mlGcCollect c s).res ∧ (mlGcCollect c s).state.SameBut (mlGcCollect c t).state := by
  have hm : Alike (markRoots c s.gcProtect s.heap.cells.length) :=
    Sim.bind (gcVisitAll_alike hc _) fun _ => .ite (fun _ => gcDrainWorklist_alike hc _) fun _ => .pure _
  have hst : State.SameBut { s with gcMarklist := [] } { t with gcMarklist := [] } := by
    rw [Aborted] at h
    rw [State.SameBut, h]
  have hall : Alike (markRoots c s.gcProtect s.heap.cells.length >>= finishCollect) :=
    Sim.bind hm fun _ => finishCollect_alike
  have hrun : mlGcCollect c t =
      (markRoots c s.gcProtect s.heap.cells.length >>= finishCollect) { t with gcMarklist := [] } := by
    rw [mlGcCollect_run, h]
  rw [hrun, mlGcCollect_run]
  exact (hall _ _ hst).same

end Granted

/-- Wherever the worklist cannot grow, the collection returns with every object, the counters
and the protect stack as they were, every mark clear and the worklist empty; a later
collection that can grow its worklist ends as if this one had not been tried. -/
theorem mlGcCollect_gives_up (c d : Config) (s : State) (hclear : s.heap.Clear)
    (hfail : .noRoom ∈ (mlGcCollect c s).trace) (hgrow : ∀ n size, d.alloc n size = true) :
    (mlGcCollect c s).res = .ok () ∧
      (mlGcCollect c s).state.heap.cells = s.heap.cells ∧
      (mlGcCollect c s).state.gcLiveObjects = s.gcLiveObjects ∧
      (mlGcCollect c s).state.gcThreshold = s.gcThreshold ∧
      (mlGcCollect c s).state.gcProtect = s.gcProtect ∧
      (mlGcCollect c s).state.heap.Clear ∧
      (mlGcCollect c s).state.gcMarklist = [] ∧
      (mlGcCollect d (mlGcCollect c s).state).res = (mlGcCollect d s).res ∧
      (mlGcCollect d s).state.SameBut (mlGcCollect d (mlGcCollect c s).state).state := by
  obtain ⟨hres, hst⟩ := mlGcCollect_aborted hclear hfail
  have hheap : (mlGcCollect c s).state.heap = s.heap := by rw [hst]
  refine ⟨hres, by rw [hheap], by rw [hst], by rw [hst], by rw [hst], by rw [hheap]; exact hclear, by rw [hst], ?_⟩
  exact mlGcCollect_alike hgrow hst

/-- A frame that binds two objects, and a worklist with room for one. -/
def State.cramped : State :=
  { State.created with
    heap := ((Heap.empty.alloc (.env mvNil [(.sym 13, .obj 2), (.sym 14, .obj 3)] 8)).alloc (.pair mvNil mvNil)).alloc
      (.pair (.obj 2) mvNil)
    gcLiveObjects := 3
    gcMarklistCap := 1 }

/-- The second value is marked, and there is no room to queue it. -/
theorem mlGcCollect_gives_up_cramped :
    (mlGcCollect .created (mlGcCollect { Config.created with alloc := fun _ _ => false } State.cramped).state).res
      = (mlGcCollect .created State.cramped).res :=
  (mlGcCollect_gives_up { Config.created with alloc := fun _ _ => false } .created State.cramped (by decide)
    (by decide +kernel) (fun _ _ => rfl)).2.2.2.2.2.2.2.1

end Microlisp
