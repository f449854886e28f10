import Microlisp.Lockstep.Eval
import Microlisp.Safety.Shapes
/-!
# Collections are transparent, as long as no pending frame is lost

A run with collections goes in lockstep with the run of the same form without: its
heap is what the collections left of the other's. So the two differ only where the
first reads an object that a collection took, and `mlEval_safe` rules that out unless
the object was a pending frame.
-/
namespace Microlisp

open Prog

/-- The same interpreter with collections disabled. -/
def Config.withoutCollections (c : Config) : Config := { c with collectDue := fun _ => false }

/-- The heap of `s` is what collections have left of the heap of `t`; the bookkeeping of
the collector aside, the rest is the same. -/
structure Remains (s t : State) : Prop where
  clear : s.heap.Clear
  next : s.heap.next = t.heap.next
  sub : ∀ a o, s.heap.get a = some o → t.heap.get a = some o
  same : t = { s with
    heap := t.heap
    gcLiveObjects := t.gcLiveObjects
    gcThreshold := t.gcThreshold
    gcKept := t.gcKept
    gcMarklist := t.gcMarklist
    gcMarklistCap := t.gcMarklistCap
    allocs := t.allocs }

theorem Remains.output {s t : State} (h : Remains s t) : s.output = t.output := by
  rw [h.same]

theorem Remains.refl {s : State} (hs : s.heap.Clear) : Remains s s := ⟨hs, rfl, fun _ _ h => h, rfl⟩

section Collecting
variable {c : Config} {s t u : State} {v : Val} {o : Obj} {a : Nat}

/-- A collection leaves less, and touches nothing else. -/
theorem mlGcCollect_remains (h : Remains s t) :
    wp Mode.ending (mlGcCollect c) s (fun _ u => Remains u t) (fun _ _ => False) := by
  refine wp_mono (mlGcCollect_spec ⟨fun _ => trivial, trivial, fun _ => trivial⟩
    (fun _ _ => trivial) h.clear False.elim)
    ?_ (fun _ _ h => h)
  rintro _ u (⟨hu, -⟩ | ⟨hu, -⟩)
  · refine ⟨fun k hk => ?_, hu.next.trans h.next, fun a o ho => h.sub a o (hu.get.1 ho).1, ?_⟩
    · rw [hu.cells] at hk
      exact h.clear k (List.mem_filter.1 hk).1
    · rw [h.same, hu.same]
  · rw [hu]
    exact ⟨h.clear, h.next, h.sub, by rw [h.same]⟩

/-- A new object on both sides. -/
theorem Remains.alloc (h : Remains s t) :
    Remains { s with heap := s.heap.alloc o, gcLiveObjects := s.gcLiveObjects + 1 }
    { t with heap := t.heap.alloc o, gcLiveObjects := t.gcLiveObjects + 1 } := by
  refine ⟨fun k hk => ?_, congrArg (· + 1) h.next, fun b o' ho => ?_, by rw [h.same]⟩
  · rcases List.mem_cons.1 hk with rfl | hk
    · rfl
    · exact h.clear k hk
  · rw [Heap.get_alloc] at ho ⊢
    rw [← h.next]
    split
    · rename_i hb
      rwa [if_pos hb] at ho
    · rename_i hb
      rw [if_neg hb] at ho
      exact h.sub b o' ho

/-- The same object overwritten on both sides. -/
theorem Remains.set (h : Remains s t) :
    Remains { s with heap := s.heap.set a o } { t with heap := t.heap.set a o } := by
  refine ⟨fun k hk => ?_, h.next, fun b o' ho => ?_, by rw [h.same]⟩
  · obtain ⟨d, hd, rfl⟩ := List.mem_map.1 hk
    have := h.clear d hd
    split <;> exact this
  · rw [Heap.get_set] at ho ⊢
    split
    · rename_i hb
      rw [if_pos hb] at ho
      obtain ⟨o₁, ho₁, rfl⟩ := Option.map_eq_some_iff.1 ho
      rw [h.sub b o₁ ho₁]
      rfl
    · rename_i hb
      rw [if_neg hb] at ho
      exact h.sub b o' ho

/-- Which runs are not compared: those that read a taken object. -/
def stuckOnly (h : Halt Status) : Prop := h = .stuck

variable (hc : ∀ n size, c.alloc n size = true)
include hc

theorem rawAllocOrFail_remains {size : Nat} :
    Sim stuckOnly (fun _ => False) Remains (rawAllocOrFail c size) (rawAllocOrFail c.withoutCollections size) := by
  have hraw : Sim stuckOnly (fun _ => False) Remains (mlRawAlloc c size) (mlRawAlloc c.withoutCollections size) := by
    refine .ite (fun _ => .pure _) fun _ => .gets_bind fun s t hR => ?_
    refine Sim.bind (Sim.modify fun s t h => ⟨h.clear, h.next, h.sub, by rw [h.same]⟩) (fun _ => ?_) s t hR
    rw [show c.withoutCollections.alloc _ size = true from hc _ size, hc]
    exact .pure _
  exact hraw.bind fun _ => .ite (fun _ => .pure _) fun _ => .fail _

theorem gcAlloc_remains {size : Nat} :
    Sim stuckOnly (fun _ => False) Remains (gcAlloc c size o) (gcAlloc c.withoutCollections size o) := by
  have hlink : Sim stuckOnly (fun _ => False) Remains (linkObject o) (linkObject o) :=
    (Sim.gets fun s t h => h.next).bind fun _ => (Sim.modify fun s t h => h.alloc).bind fun _ =>
      noteHeap_sim.bind fun _ => .pure _
  have hrest : Sim stuckOnly (fun _ => False) Remains (rawAllocOrFail c size >>= fun _ => linkObject o)
      (rawAllocOrFail c.withoutCollections size >>= fun _ => linkObject o) :=
    (rawAllocOrFail_remains hc).bind fun _ => hlink
  have hright : gcAlloc c.withoutCollections size o
      = (rawAllocOrFail c.withoutCollections size >>= fun _ => linkObject o) := by
    funext t
    rfl
  rw [hright]
  intro s t h
  refine simAt_left rfl (Q := fun _ u => Remains u t) ?_ fun _ u hu => hrest u t hu
  refine wp_bind (wp_gets ?_)
  split
  · exact mlGcCollect_remains h
  · exact wp_pure h

theorem mlGcProtect_remains :
    Sim stuckOnly (fun _ => False) Remains (mlGcProtect c v) (mlGcProtect c.withoutCollections v) := by
  have hpush : Sim stuckOnly (fun _ => False) Remains
      (modify fun s => { s with gcProtect := s.gcProtect ++ [v] } : ML Unit)
      (modify fun s => { s with gcProtect := s.gcProtect ++ [v] } : ML Unit) :=
    .modify fun s t h => ⟨h.clear, h.next, h.sub, by rw [h.same]⟩
  refine (Sim.gets fun s t h => by rw [h.same]).bind fun count => (Sim.gets fun s t h => by rw [h.same]).bind
    fun cap => ?_
  refine .ite (fun _ => ?_) fun _ => hpush
  refine (rawAllocOrFail_remains hc).bind fun _ => (Sim.modify fun s t h => ?_).bind fun _ => hpush
  exact ⟨h.clear, h.next, h.sub, by rw [h.same]⟩

/-- With and without collections, evaluations go in lockstep. -/
theorem lockstep_collections : LockstepEval stuckOnly (fun _ => False) c c.withoutCollections (· = ·) Remains where
  fwrite := rfl
  fflush := rfl
  maxPrintDepth := .inl rfl
  maxEqualDepth := .inl rfl
  maxEvalDepth := .inl rfl
  symQuote := rfl
  symIf := rfl
  symDefine := rfl
  symLambda := rfl
  symSetBang := rfl
  symLet := rfl
  symLetStar := rfl
  symLetrec := rfl
  symBegin := rfl
  symAnd := rfl
  symOr := rfl
  symCond := rfl
  symElse := rfl
  readObj := fun a => .gets_bind fun s t h => by
    cases ho : s.heap.get a with
    | none => exact simAt_stuck rfl
    | some o =>
      rw [h.sub a o ho]
      exact simAt_pure h
  writeObj := fun v o => by
    cases v with
    | obj a => exact (Sim.modify fun s t h => h.set).bind fun _ => noteHeap_sim
    | _ => exact .stuck
  gcAlloc := fun size o => gcAlloc_remains hc
  rawAlloc := fun size => rawAllocOrFail_remains hc
  protect := fun v => mlGcProtect_remains hc
  height := fun s t h => by rw [h.same]
  restore := by
    rintro n _ s t rfl h
    exact ⟨h.clear, h.next, h.sub, by rw [h.same]; rfl⟩
  unprotect := fun n s t h => ⟨h.clear, h.next, h.sub, by rw [h.same]; rfl⟩
  setSlot := by
    rintro n _ v s t rfl h
    exact ⟨h.clear, h.next, h.sub, by rw [h.same]; rfl⟩
  setError := fun _ _ _ s t h => ⟨h.clear, h.next, h.sub, by rw [h.same]; rfl⟩
  next := fun s t h => h.next
  symtab := fun s t h => by rw [h.same]
  printDepth := fun s t h => by rw [h.same]
  setPrintDepth := fun n s t h => ⟨h.clear, h.next, h.sub, by rw [h.same]⟩
  equalDepth := fun s t h => by rw [h.same]
  setEqualDepth := fun n s t h => ⟨h.clear, h.next, h.sub, by rw [h.same]⟩
  writes := fun s t h => by rw [h.same]
  write := fun bytes s t h => ⟨h.clear, h.next, h.sub, by rw [h.same]⟩
  flushes := fun s t h => by rw [h.same]
  flush := fun s t h => ⟨h.clear, h.next, h.sub, by rw [h.same]⟩
  getSlot := by
    rintro n _ rfl
    refine .gets_bind fun s t h => ?_
    rw [show t.gcProtect = s.gcProtect by rw [h.same]]
    cases s.gcProtect[n]? with
    | none => exact simAt_stuck rfl
    | some v => exact simAt_pure h
  nextSlot := by
    rintro n _ rfl
    rfl
  evalDepth := fun s t h => by rw [h.same]
  setEvalDepth := fun n s t h => ⟨h.clear, h.next, h.sub, by rw [h.same]⟩
  push := fun v s t h => ⟨h.clear, h.next, h.sub, by rw [h.same]; rfl⟩
  pop := fun s t h => ⟨h.clear, h.next, h.sub, by rw [h.same]; rfl⟩

end Collecting

/-- A run that never reads a taken object ends as the run without collections does. -/
theorem Remains.of_sim {α : Type} {m m' : ML α} {s t : State} (h : SimAt stuckOnly (fun _ => False) Remains m m' s t)
    (hstuck : (m s).res ≠ .error .stuck) : (m s).res = (m' t).res ∧ Remains (m s).state (m' t).state := by
  unfold SimAt Run.Sim at h
  split at h
  · rename_i hl hr
    rw [hl, hr, h.1]
    exact ⟨rfl, h.2⟩
  · rename_i hl hr
    rw [hl, hr]
    rcases h with h | h | ⟨rfl, hR⟩
    · exact absurd (hl.trans (congrArg _ h)) hstuck
    · exact h.elim
    · exact ⟨rfl, hR⟩
  · rename_i hl _
    exact absurd (hl.trans (congrArg _ h)) hstuck
  · exact h.elim

/-- Runs with any collections; not judged once a sweep has taken a pending frame. -/
def Mode.unlessLost : Mode Event := ⟨(· = .lostFrame), fun _ => True, True, False⟩

/-- If no sweep takes the frame of a call whose leading body forms are being evaluated, an
evaluation never reads an object that a collection took, and ends as it does without
collections: with the same status and value, output and bindings, and what is left of the
heap unchanged. The value it returns is still there, with all that it leads to. -/
theorem mlEval_transparent (c : Config) (hc : ∀ n size, c.alloc n size = true) (n : Nat) (s : State)
    (hs : s.WellFormed c) (form env : Val) (hform : s.heap.ValOk form) (henv : s.heap.FrameOk env)
    (hlost : .lostFrame ∉ (mlEval c n form env s).trace) :
    (mlEval c n form env s).res ≠ .error .stuck ∧
    (mlEval c n form env s).res = (mlEval c.withoutCollections n form env s).res ∧
    (mlEval c n form env s).state.output = (mlEval c.withoutCollections n form env s).state.output ∧
    (mlEval c n form env s).state.lastError = (mlEval c.withoutCollections n form env s).state.lastError ∧
    (∀ a o, (mlEval c n form env s).state.heap.get a = some o →
      (mlEval c.withoutCollections n form env s).state.heap.get a = some o) ∧
    (∀ v, (mlEval c n form env s).res = .ok v → (mlEval c n form env s).state.heap.ValOk v) ∧
    ((mlEval c n form env s).res ≠ .error .timeout → (mlEval c n form env s).state.WellFormed c ∧
      ∃ f : Frame, (mlEval c n form env s).state.heap.Has c.toplevelEnv f.obj ∧
        (mlEval c.withoutCollections n form env s).state.heap.Has c.toplevelEnv f.obj) := by
  have hM : EvalMode c Mode.unlessLost :=
    ⟨⟨fun _ => trivial, trivial, fun _ => trivial⟩, ⟨fun _ _ => trivial, fun _ _ _ => trivial⟩,
      fun _ => trivial, .inl rfl, id⟩
  have hx : ∀ e ∈ (mlEval c n form env s).trace, ¬ Mode.unlessLost.excused e := by
    rintro e he rfl
    exact hlost he
  have hk := (mlEval_safe hM n s form env hs hform henv hx).2
  have hstuck : (mlEval c n form env s).res ≠ .error .stuck := fun hr => by
    rw [hr] at hk
    exact hk trivial
  have hwf : (mlEval c n form env s).res ≠ .error .timeout → (mlEval c n form env s).state.WellFormed c := fun ht => by
    split at hk
    · exact hk.1.wf
    · exact hk
    · exact absurd trivial hk
    · exact absurd ‹_› ht
  obtain ⟨hres, hR⟩ := Remains.of_sim (mlEval_lockstep (lockstep_collections hc) n form env s s (.refl hs.clear)) hstuck
  have hvalue : ∀ v, (mlEval c n form env s).res = .ok v → (mlEval c n form env s).state.heap.ValOk v := fun v hr => by
    rw [hr] at hk
    exact hk.2
  refine ⟨hstuck, hres, by rw [hR.same], by rw [hR.same], hR.sub, hvalue, fun ht => ⟨hwf ht, ?_⟩⟩
  obtain ⟨f, a, ha, hf⟩ := (hwf ht).toplevel
  exact ⟨f, ⟨a, ha, hf⟩, a, ha, hR.sub a _ hf⟩

/-! ## Runs that differ -/

/-- The defaults, with a collection at every allocation. -/
def Config.stressed : Config := { Config.created with collectDue := fun _ => true }

/-- `(let ((g (lambda () (let () 1)))) ((lambda (x) (g) x) 42))`, with 13 and 14 for the
symbols `g` and `x`. -/
def Tree.losesFrame : Tree :=
  .list [.leaf (.sym 5),
    .list [.list [.leaf (.sym 13),
      .list [.leaf (.sym 3), .list [], .list [.leaf (.sym 5), .list [], .leaf (mlMakeFix 1)]]]],
    .list [.list [.leaf (.sym 3), .list [.leaf (.sym 14)], .list [.leaf (.sym 13)], .leaf (.sym 14)],
      .leaf (mlMakeFix 42)]]

/-- While the call of `g` runs its own body, nothing holds the frame that binds `x`. -/
theorem mlEval_loses_frame :
    (State.given .losesFrame).WellFormed .stressed ∧ (State.given .losesFrame).heap.ValOk Tree.losesFrame.value ∧
    (State.given .losesFrame).heap.FrameOk (.obj 1) ∧ (State.given .losesFrame).gcProtect =
      [Tree.losesFrame.value, .obj 1] ∧
    (∀ n size, Config.stressed.alloc n size = true) ∧
    (mlEval .stressed 6 Tree.losesFrame.value (.obj 1) (State.given .losesFrame)).res = .error .stuck ∧
    (mlEval Config.stressed.withoutCollections 6 Tree.losesFrame.value (.obj 1) (State.given .losesFrame)).res
      = .ok (mlMakeFix 42) := by
  obtain ⟨hs, hv, he⟩ := State.given_wellFormed (c := .stressed) (t := .losesFrame) rfl (by decide +kernel)
  exact ⟨hs, hv, he, rfl, fun _ _ => rfl, by decide +kernel, by decide +kernel⟩

/-- `((lambda (x) (let () x) x) 42)` -/
def Tree.keepsFrame : Tree :=
  .list [.list [.leaf (.sym 3), .list [.leaf (.sym 14)], .list [.leaf (.sym 5), .list [], .leaf (.sym 14)],
    .leaf (.sym 14)],
    .leaf (mlMakeFix 42)]

theorem mlEval_transparent_keepsFrame :
    (mlEval .stressed 6 Tree.keepsFrame.value (.obj 1) (State.given .keepsFrame)).res
      = (mlEval Config.stressed.withoutCollections 6 Tree.keepsFrame.value (.obj 1) (State.given .keepsFrame)).res := by
  obtain ⟨hs, hv, he⟩ := State.given_wellFormed (c := .stressed) (t := .keepsFrame) rfl (by decide +kernel)
  exact (mlEval_transparent .stressed (fun _ _ => rfl) 6 _ hs _ _ hv he (by decide +kernel)).2.1

end Microlisp
