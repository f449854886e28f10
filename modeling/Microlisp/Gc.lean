import Microlisp.State
/-!
# Collector and allocators (`gc.c`)

A collection marks what the top-level environment and the protect stack reach,
through a worklist of its own, then sweeps the object list.
-/
namespace Microlisp

open Prog

/-! ## Mark -/

def gcPushMark (c : Config) (o : Nat) : ML Bool := do
  let count ← gets fun s => s.gcMarklist.length
  let cap ← gets State.gcMarklistCap
  let room ← if count = cap then do
      let newCap := if cap = 0 then 64 else cap * 2
      if ← mlRawAlloc c (newCap * 8) then
        modify fun s => { s with gcMarklistCap := newCap }
        pure true
      else
        pure false
    else
      pure true
  if room then
    modify fun s => { s with gcMarklist := o :: s.gcMarklist }
    emit (.pushed o)
    pure true
  else
    emit .noRoom
    pure false

def gcVisit (c : Config) (v : Val) : ML Bool :=
  match v with
  | .obj 0 => pure true
  | .obj a => do
    match ← gets (fun s => s.heap.cell? a) with
    | none => stuck
    | some o =>
      if o.marked then
        pure true
      else
        modify fun s => { s with heap := s.heap.mark a }
        gcPushMark c a
  | _ => pure true

/-- Visit in order, up to the first failure. -/
def gcVisitAll (c : Config) : List Val → ML Bool
  | [] => pure true
  | v :: vs => do
    if ← gcVisit c v then gcVisitAll c vs else pure false

/-- The loop's bound counts objects taken off the worklist. -/
def gcDrainWorklist (c : Config) : Nat → ML Bool
  | 0 => timeout
  | n + 1 => do
    match ← gets State.gcMarklist with
    | [] => pure true
    | o :: rest =>
      modify fun s => { s with gcMarklist := rest }
      let obj ← readObj o
      if ← gcVisitAll c obj.refs then gcDrainWorklist c n else pure false

def gcClearAllMarks (s : State) : State := { s with heap := s.heap.clearMarks }

/-! ## Sweep -/

/-- The links the sweep leaves, with the count of live objects. -/
def sweepList : List Cell → List Cell × Nat
  | [] => ([], 0)
  | o :: next =>
    let (kept, live) := sweepList next
    if o.marked then ({ o with marked := false } :: kept, live + 1) else (kept, live)

theorem sweepList_fst (l : List Cell) :
    (sweepList l).1 = (l.filter Cell.marked).map (fun o => { o with marked := false }) := by
  induction l with
  | nil => rfl
  | cons o next ih =>
    simp only [sweepList]
    cases h : o.marked <;> simp [h, ih]

theorem sweepList_snd (l : List Cell) : (sweepList l).2 = (l.filter Cell.marked).length := by
  induction l with
  | nil => rfl
  | cons o next ih =>
    simp only [sweepList]
    cases h : o.marked <;> simp [h, ih]

/-- The heap around the swept list. -/
def Heap.sweep (h : Heap) : Heap where
  cells := (sweepList h.cells).1
  next := h.next
  nodup := by
    rw [sweepList_fst, List.map_map]
    exact h.nodup.sublist (List.filter_sublist.map _)
  fresh := by
    intro c hc
    rw [sweepList_fst, List.mem_map] at hc
    obtain ⟨d, hd, rfl⟩ := hc
    exact h.fresh d (List.mem_filter.1 hd).1
  next_pos := h.next_pos

def sweep (s : State) : State :=
  { s with heap := s.heap.sweep, gcLiveObjects := (sweepList s.heap.cells).2 }

/-! ## Collect -/

/-- Twice the live objects, at least 4096. -/
def nextThreshold (live : Nat) : Nat :=
  let doubled := if live * 2 < 2 ^ 64 then live * 2 else sizeMax
  if doubled > 4096 then doubled else 4096

/-- Has the heap lost this frame? -/
def frameLost (s : State) : Val → Bool
  | .obj a => (s.heap.get a).isNone
  | _ => false

/-- Record that a frame some `eval_body` still needs is gone. -/
def notePending : ML Unit := do
  if ← gets (fun s => s.pending.any (frameLost s)) then emit .lostFrame else pure ()

def mlGcCollect (c : Config) : ML Unit := do
  modify fun s => { s with gcMarklist := [] }
  let protect ← gets State.gcProtect
  let objects ← gets fun s => s.heap.cells.length
  let rootsOk ← gcVisitAll c (c.toplevelEnv :: protect)
  let ok ← if rootsOk then gcDrainWorklist c (objects + 1) else pure false
  if ok then
    modify sweep
    modify fun s => { s with gcThreshold := nextThreshold s.gcLiveObjects, gcKept := some s.heap.cells.length }
    noteHeap
    notePending
  else
    modify gcClearAllMarks
    modify fun s => { s with gcMarklist := [] }

/-! ## Object allocation -/

def maybeCollect (c : Config) : ML Unit := do
  if ← gets c.collectDue then mlGcCollect c else pure ()

def linkObject (o : Obj) : ML Val := do
  let a ← gets fun s => s.heap.next
  modify fun s => { s with heap := s.heap.alloc o, gcLiveObjects := s.gcLiveObjects + 1 }
  noteHeap
  pure (.obj a)

/-- The common path of the allocators: maybe collect, then allocate, then link. -/
def gcAlloc (c : Config) (size : Nat) (o : Obj) : ML Val := do
  maybeCollect c
  rawAllocOrFail c size
  linkObject o

def mlGcAllocPair (c : Config) (car cdr : Val) : ML Val := gcAlloc c 32 (.pair car cdr)

def mlGcAllocString (c : Config) (bytes : Bytes) : ML Val := gcAlloc c (24 + bytes.length) (.string bytes)

/-- `ml_gc_alloc_closure`, with the two fields its one caller assigns next. -/
def mlGcAllocClosure (c : Config) (env params body : Val) (variadic : Bool) (arityMin : UInt32) : ML Val :=
  gcAlloc c 48 (.closure env params body variadic arityMin)

def mlGcAllocPrimitive (c : Config) (name : String) (fn : PrimFn) (arityMin arityMax : UInt32) : ML Val :=
  gcAlloc c 40 (.prim name fn arityMin arityMax)

def mlGcAllocEnv (c : Config) (parent : Val) : ML Val := gcAlloc c 56 (.env parent [] 0)

end Microlisp
